import LibrePortable.Build.FindLibreSSL

/-!
# Which versions are found

The version line has two quotation marks, and behind the first one a release has exactly one
place where three numbers can end in front of the second. So the first wildcard stops at
the first quotation mark, and the second one goes on for as long as one digit is left to the
first number. In the line of a release candidate, what stands in front of the last number is
no dot.
-/

namespace LibrePortable.Build

open Lib Regex

/-! ## Numbers -/

/-- A text that can be a number. -/
structure IsNumber (x : Text) : Prop where
  ne_nil : x ≠ []
  digits : ∀ c ∈ x, c.isDigit = true

theorem decimal_isNumber (n : Nat) : IsNumber (decimal n) :=
  ⟨Nat.toDigits_ne_nil, fun _ hc => Nat.isDigit_of_mem_toDigits (by decide) (by decide) hc⟩

theorem decimal_inj {n m : Nat} (h : decimal n = decimal m) : n = m := by
  have hvalue := congrArg (fun x => Nat.ofDigitChars 10 x 0) h
  simpa only [decimal, Nat.ofDigitChars_ten_toDigits] using hvalue

/-- The last digit. -/
theorem decimal_split (n : Nat) :
    decimal n = (if n < 10 then [] else decimal (n / 10)) ++ decimal (n % 10) := by
  rw [decimal, decimal, decimal, Nat.toDigits_eq_if (by decide)]
  split
  · next hlt => rw [Nat.mod_eq_of_lt hlt, Nat.toDigits_of_lt_base hlt, List.nil_append]
  · rw [Nat.toDigits_of_lt_base (n := n % 10) (Nat.mod_lt _ (by decide))]

theorem decimal_mod_eq_iff (n : Nat) : decimal (n % 10) = decimal n ↔ n < 10 := by
  refine ⟨fun h => ?_, fun hlt => by rw [Nat.mod_eq_of_lt hlt]⟩
  have hmod := decimal_inj h
  omega

theorem IsNumber.not_mem {x : Text} (hx : IsNumber x) {c : Char} (hc : c.isDigit = false) :
    c ∉ x := fun hmem => by
  rw [hx.digits c hmem] at hc
  cases hc

/-- What is no digit is not part of a number. -/
theorem IsNumber.count {x : Text} (hx : IsNumber x) {c : Char} (hc : c.isDigit = false) :
    x.count c = 0 := List.count_eq_zero.mpr (hx.not_mem hc)

/-! ## Three numbers -/

/-- `x.y.z"` -/
def dotted (x y z : Text) : Text := x ++ '.' :: (y ++ '.' :: (z ++ ['"']))

theorem number_run {x s : Text} {r : Regex Char} (hx : IsNumber x)
    (hs : ∀ c ∈ s.head?, c.isDigit = false) (hr : Rejects r Char.isDigit) :
    (Regex.seq number r).run (x ++ s) = (r.run s).map (Match.append ⟨x, s, [x]⟩) :=
  (Settled.plus hx.ne_nil hx.digits hs).group.run_seq hr

theorem rejects_digit {c : Char} (hc : c.isDigit = false) :
    Rejects (.one (· = c)) Char.isDigit := Rejects.one fun a ha => by
  refine decide_eq_false fun heq => ?_
  rw [heq, hc] at ha
  cases ha

/-- **Three numbers** are matched in one way. -/
theorem numbersRegex_run {x y z : Text} (hx : IsNumber x) (hy : IsNumber y) (hz : IsNumber z) :
    numbersRegex.run (dotted x y z) = [⟨dotted x y z, [], [x, y, z]⟩] := by
  have hdot : ∀ s, (Regex.one (· = '.')).run ('.' :: s) = [⟨['.'], s, []⟩] := fun _ => rfl
  have hhead : ∀ {c : Char} {s : Text}, c.isDigit = false →
      ∀ a ∈ (c :: s).head?, a.isDigit = false := fun hc a ha => by
    obtain rfl := Option.some.inj ha
    exact hc
  rw [numbersRegex, dotted, number_run hx (hhead rfl) (rejects_digit rfl).seq,
    run_seq_of_eq (hdot _), number_run hy (hhead rfl) (rejects_digit rfl).seq,
    run_seq_of_eq (hdot _), number_run hz (hhead rfl) (rejects_digit rfl)]
  rfl

/-- And nothing else is matched. -/
theorem numbersRegex_lang {t : Text} (ht : t ∈ numbersRegex.lang) :
    ∃ x y z, IsNumber x ∧ IsNumber y ∧ IsNumber z ∧ t = dotted x y z := by
  obtain ⟨x, hx, _, ⟨_, ⟨a, ha, rfl⟩, _, ⟨y, hy, _, ⟨_, ⟨b, hb, rfl⟩, _, ⟨z, hz, _, ⟨c, hc, rfl⟩,
    rfl⟩, rfl⟩, rfl⟩, rfl⟩, rfl⟩ := ht
  obtain rfl : a = '.' := of_decide_eq_true ha
  obtain rfl : b = '.' := of_decide_eq_true hb
  obtain rfl : c = '"' := of_decide_eq_true hc
  have hnumber : ∀ {x : Text}, x ∈ number.lang → IsNumber x := fun hx =>
    ⟨(mem_plus.mp hx).1, (mem_plus.mp hx).2⟩
  exact ⟨x, y, z, hnumber hx, hnumber hy, hnumber hz, rfl⟩

theorem dotted_count {x y z : Text} (hx : IsNumber x) (hy : IsNumber y) (hz : IsNumber z) :
    (dotted x y z).count '.' = 2 ∧ (dotted x y z).count '"' = 1 := by
  constructor <;> simp [dotted, hx.count, hy.count, hz.count]

/-- The first wildcard, and the first quotation mark behind it. -/
def quotedRegex : Regex Char :=
  .seq (.one (· = '"')) (.seq (.many fun _ => true) numbersRegex)

theorem quotedRegex_lang {t : Text} (ht : t ∈ quotedRegex.lang) :
    ∃ w x y z, IsNumber x ∧ IsNumber y ∧ IsNumber z ∧ t = '"' :: (w ++ dotted x y z) := by
  obtain ⟨_, ⟨a, ha, rfl⟩, _, ⟨w, -, _, hnumbers, rfl⟩, rfl⟩ := ht
  obtain rfl : a = '"' := of_decide_eq_true ha
  obtain ⟨x, y, z, hx, hy, hz, rfl⟩ := numbersRegex_lang hnumbers
  exact ⟨w, x, y, z, hx, hy, hz, rfl⟩

/-- **One digit is left** to the first number. -/
theorem wildcard_numbers (t : Text) {d : Char} {y z : Text} (hd : IsNumber [d]) (hy : IsNumber y)
    (hz : IsNumber z) :
    ((Regex.seq (.many fun _ => true) numbersRegex).run (t ++ dotted [d] y z)).head? =
      some ⟨t ++ dotted [d] y z, [], [[d], y, z]⟩ := by
  have hlast : ∀ u v, dotted [d] y z = u ++ v → u ≠ [] → numbersRegex.run v = [] := by
    intro u v hsplit hu
    refine List.eq_nil_iff_forall_not_mem.mpr fun m hm => ?_
    obtain ⟨hv, hlang⟩ := run_sound hm
    obtain ⟨x', y', z', hx', hy', hz', htext⟩ := numbersRegex_lang hlang
    obtain ⟨c, u, rfl⟩ := List.exists_cons_of_ne_nil hu
    obtain ⟨rfl, htail⟩ := List.cons.inj hsplit
    cases u with
    | nil =>
        -- a number does not begin with a dot
        obtain ⟨a, x', rfl⟩ := List.exists_cons_of_ne_nil hx'.ne_nil
        rw [hv, htext] at htail
        have hdigit := hx'.digits a List.mem_cons_self
        rw [← (List.cons.inj htail).1] at hdigit
        cases hdigit
    | cons b u =>
        have htail : y ++ '.' :: (z ++ ['"']) = u ++ v := (List.cons.inj htail).2
        have hcount := congrArg (List.count '.') htail
        rw [hv, htext, List.count_append, List.count_append, List.count_append,
          (dotted_count hx' hy' hz').1] at hcount
        simp [hy.count, hz.count] at hcount
        omega
  rw [run_many_seq_head (fun _ _ => rfl) hlast (by rw [numbersRegex_run hd hy hz]; rfl)]
  rfl

theorem versionRegex_run (lead : Text) {t : Text} {d : Char} {y z : Text} (ht : '"' ∉ t)
    (hd : IsNumber [d]) (hy : IsNumber y) (hz : IsNumber z) :
    (versionRegex.run (lead ++ '"' :: (t ++ dotted [d] y z))).head? =
      some ⟨lead ++ '"' :: (t ++ dotted [d] y z), [], [[d], y, z]⟩ := by
  have hlast : ∀ u v, '"' :: (t ++ dotted [d] y z) = u ++ v → u ≠ [] →
      quotedRegex.run v = [] := by
    intro u v hsplit hu
    refine List.eq_nil_iff_forall_not_mem.mpr fun m hm => ?_
    obtain ⟨hv, hlang⟩ := run_sound hm
    obtain ⟨w, x', y', z', hx', hy', hz', htext⟩ := quotedRegex_lang hlang
    obtain ⟨c, u, rfl⟩ := List.exists_cons_of_ne_nil hu
    have htail : t ++ dotted [d] y z = u ++ v := (List.cons.inj hsplit).2
    have hcount := congrArg (List.count '"') htail
    rw [hv, htext, List.count_append, List.count_append, List.count_append, List.count_cons_self,
      List.count_append, (dotted_count hx' hy' hz').2, (dotted_count hd hy hz).2,
      List.count_eq_zero.mpr ht] at hcount
    omega
  have hquote : (Regex.one (· = '"')).run ('"' :: (t ++ dotted [d] y z)) =
      [⟨['"'], t ++ dotted [d] y z, []⟩] := rfl
  refine (run_many_seq_head (fun _ _ => rfl) hlast (m := ⟨'"' :: (t ++ dotted [d] y z), [],
    [[d], y, z]⟩) ?_).trans rfl
  rw [quotedRegex, run_seq_of_eq hquote, List.head?_map, wildcard_numbers t hd hy hz]
  rfl

/-! ## The version line -/

/-- A version holds digits, dots and `rc`. -/
theorem not_mem_text {v : Version} {c : Char}
    (hc : (c.isDigit || c = '.' || c = 'r' || c = 'c') = false) : c ∉ v.text := by
  simp only [Bool.or_eq_false_iff, decide_eq_false_iff_not] at hc
  obtain ⟨⟨⟨hdigit, hdot⟩, hr⟩, hcand⟩ := hc
  have hsuffix : c ∉ v.suffix := by
    rw [Version.suffix]
    split
    · exact List.not_mem_nil
    · simp [hr, hcand, (decimal_isNumber _).not_mem hdigit]
  simp [Version.text, (decimal_isNumber _).not_mem hdigit, hdot, hsuffix]

/-- A release is three numbers, the first of them with its last digit apart. -/
theorem release_line {v : Version} (hrc : v.rc = none) : ∃ lead : Text, '"' ∉ lead ∧
    versionLine v = macroName ++ [' '] ++ '"' ::
      (lead ++ dotted (decimal (v.major % 10)) (decimal v.minor) (decimal v.revision)) := by
  refine ⟨product ++ (if v.major < 10 then [] else decimal (v.major / 10)), ?_, ?_⟩
  · have hproduct : '"' ∉ product := by decide
    split
    · simpa using hproduct
    · simp [hproduct, (decimal_isNumber _).not_mem]
  · rw [versionLine, Version.text, Version.suffix, hrc, decimal_split v.major]
    simp [dotted]

theorem last_digit (n : Nat) : ∃ d, decimal (n % 10) = [d] :=
  ⟨_, Nat.toDigits_of_lt_base (Nat.mod_lt _ (by decide))⟩

/-- What the expression makes of a release. -/
theorem release_replaced {v : Version} (hrc : v.rc = none) (f : Match Char → Text) :
    regexReplace versionRegex f (versionLine v) = some (f ⟨versionLine v, [],
      [decimal (v.major % 10), decimal v.minor, decimal v.revision]⟩) := by
  obtain ⟨lead, hlead, hline⟩ := release_line hrc
  obtain ⟨d, hd⟩ := last_digit v.major
  have hdigit := decimal_isNumber (v.major % 10)
  rw [hd] at hline hdigit ⊢
  have hhead := versionRegex_run (macroName ++ [' ']) hlead hdigit
    (decimal_isNumber v.minor) (decimal_isNumber v.revision)
  rw [← hline] at hhead
  obtain ⟨c, l, hcons⟩ : ∃ c l, versionLine v = c :: l := ⟨_, _, rfl⟩
  rw [regexReplace, hcons, List.length_cons, ← hcons,
    replaceAll_of_head hhead (by rw [hcons]; exact List.cons_ne_nil _ _)]
  dsimp only
  rw [replaceAll_of_none rfl, Option.map_some, List.append_nil]

/-- What stands in front of the last digits. -/
theorem before_digits {l l' x x' : Text} {a b : Char} (hx : ∀ c ∈ x, c.isDigit = true)
    (hx' : ∀ c ∈ x', c.isDigit = true) (ha : a.isDigit = false) (hb : b.isDigit = false)
    (h : l ++ a :: x = l' ++ b :: x') : a = b := by
  have hdrop : ∀ {l x : Text} {a : Char}, (∀ c ∈ x, c.isDigit = true) → a.isDigit = false →
      (l ++ a :: x).reverse.dropWhile Char.isDigit = a :: l.reverse := by
    intro l x a hx ha
    rw [List.reverse_append, List.reverse_cons, List.append_assoc, List.dropWhile_append_of_pos
      (fun c hc => hx c (List.mem_reverse.mp hc))]
    exact List.dropWhile_cons_of_neg (by rw [ha]; exact Bool.false_ne_true)
  have hreverse := hdrop (l := l) hx ha
  rw [h, hdrop hx' hb] at hreverse
  exact (List.cons.inj hreverse).1.symm

/-- The line of a release candidate ends with digits behind a `c`. -/
theorem candidate_line {v : Version} {r : Nat} (hrc : v.rc = some r) :
    ∃ lead : Text, versionLine v = (lead ++ 'c' :: decimal r) ++ ['"'] := by
  refine ⟨macroName ++ ' ' :: '"' :: (product ++ (decimal v.major ++ '.' ::
    (decimal v.minor ++ '.' :: (decimal v.revision ++ ['r'])))), ?_⟩
  rw [versionLine, Version.text, Version.suffix, hrc]
  simp

theorem versionLine_count (v : Version) : (versionLine v).count '"' = 2 := by
  have htext : '"' ∉ v.text := not_mem_text rfl
  have hmacro : macroName.count '"' = 0 := by decide
  have hproduct : product.count '"' = 0 := by decide
  simp [versionLine, hmacro, hproduct, List.count_eq_zero.mpr htext]

/-- **In the line of a release candidate**, nothing is matched. -/
theorem candidate_not_found {v : Version} {r : Nat} (hrc : v.rc = some r) :
    versionRegex.search (versionLine v) = none := by
  refine search_eq_none fun u t w hline ht => ?_
  obtain ⟨lead, -, t, hquoted, rfl⟩ := ht
  obtain ⟨w', x, y, z, hx, hy, hz, rfl⟩ := quotedRegex_lang hquoted
  -- both quotation marks are part of the match, so the line ends with it
  have hcount := versionLine_count v
  rw [hline] at hcount
  simp only [List.count_append, List.count_cons_self, (dotted_count hx hy hz).2] at hcount
  have hw : w.count '"' = 0 := by omega
  obtain ⟨lead', hlast⟩ := candidate_line hrc
  rw [hline] at hlast
  rcases List.eq_nil_or_concat w with rfl | ⟨w, c, rfl⟩
  · have hdigits : (u ++ lead ++ '"' :: (w' ++ x ++ '.' :: y)) ++ '.' :: z =
        lead' ++ 'c' :: decimal r := by
      refine (List.append_left_inj ['"']).mp ?_
      rw [← hlast]
      simp [dotted]
    have hdot := before_digits hz.digits (decimal_isNumber r).digits rfl rfl hdigits
    cases hdot
  · rw [List.concat_eq_append, ← List.append_assoc] at hlast
    obtain rfl := List.singleton_inj.mp (List.append_inj_right' hlast rfl)
    simp at hw

/-! ## The header -/

theorem macroName_eq : macroName = "#define ".toList ++ "LIBRESSL_VERSION_TEXT".toList := by
  decide

/-- A line that does not mention the version does not contain the macro. -/
theorem macro_mentions {l u t w : Text} {r : Regex Char} (hl : mentionsVersion l = false)
    (hline : l = u ++ t ++ w) : t ∉ (Regex.seq (.text macroName) r).lang := by
  rintro ⟨name, hname, t, -, rfl⟩
  obtain rfl := eq_of_mem_text hname
  refine of_decide_eq_false hl ⟨u ++ "#define ".toList, t ++ w, ?_⟩
  rw [hline, macroName_eq]
  simp only [List.append_assoc]

/-- A line that neither `sed` nor CMake takes for the version line. -/
structure Plain (l : Text) : Prop where
  sed : (sedRegex.search l).isSome = false
  cmake : (lineRegex.search l).isSome = false

theorem plain_of_silent {l : Text} (hl : mentionsVersion l = false) : Plain l := by
  have hsed : sedRegex.search l = none := search_eq_none fun u t w hsplit ht => by
    obtain ⟨t, ht, t', -, rfl⟩ := ht
    refine macro_mentions (u := u) (w := t' ++ w) hl ?_ ht
    rw [hsplit]
    simp only [List.append_assoc]
  have hcmake : lineRegex.search l = none :=
    search_eq_none fun u t w hsplit => macro_mentions hl hsplit
  exact ⟨by rw [hsed]; rfl, by rw [hcmake]; rfl⟩

/-- What stands around the version line. Lines behind it may mention the version, since only
the first that does so goes into the file `VERSION`. -/
structure Header (before after : List Text) : Prop where
  before : ∀ l ∈ before, mentionsVersion l = false
  after : ∀ l ∈ after, Plain l

/-- No line of a list is selected. -/
theorem filter_nil {p : Text → Bool} {ls : List Text} (h : ∀ l ∈ ls, p l = false) :
    ls.filter p = [] :=
  List.filter_eq_nil_iff.mpr fun l hmem => by
    rw [h l hmem]
    exact Bool.false_ne_true

theorem versionLine_lang (v : Version) : versionLine v ∈ lineRegex.lang :=
  ⟨macroName, text_mem_lang _, ' ' :: '"' :: (product ++ (v.text ++ ['"'])),
    ⟨[' '], mem_plus.mpr ⟨List.cons_ne_nil _ _, by simp⟩, '"' :: (product ++ (v.text ++ ['"'])),
      ⟨['"'], ⟨'"', rfl, rfl⟩, product ++ (v.text ++ ['"']),
        ⟨product ++ v.text, fun _ _ => rfl, ['"'], ⟨'"', rfl, rfl⟩, List.append_assoc ..⟩, rfl⟩,
      rfl⟩, rfl⟩

/-- **The version line is found** in the header. -/
theorem fileStrings_header {before after : List Text} (h : Header before after) (v : Version) :
    fileStrings lineRegex (before ++ versionLine v :: after) = versionLine v := by
  have hline : (lineRegex.search (versionLine v)).isSome = true := by
    have := search_isSome (versionLine_lang v) []
    rwa [List.append_nil] at this
  have hbefore : ∀ l ∈ before, (lineRegex.search l).isSome = false := fun l hl =>
    (plain_of_silent (h.before l hl)).cmake
  have hafter : ∀ l ∈ after, (lineRegex.search l).isSome = false := fun l hl => (h.after l hl).cmake
  rw [fileStrings, List.filter_append, filter_nil hbefore,
    List.filter_cons_of_pos (p := fun l => (lineRegex.search l).isSome) hline, filter_nil hafter]
  exact List.append_nil _

/-! ## What `update.sh` leaves -/

/-- `LIBRESSL_RC`, for a version. -/
def Version.rcText (v : Version) : Text := (v.rc.map decimal).getD []

/-- The version without its `rcR`, as it comes from upstream. -/
def Version.release (v : Version) : Version := { v with rc := none }

theorem text_release (v : Version) : v.release.text ++ v.suffix = v.text := by
  simp [Version.text, Version.release, Version.suffix]

theorem mentions_versionLine (v : Version) : mentionsVersion (versionLine v) = true := by
  refine decide_eq_true ⟨"#define ".toList, ' ' :: '"' :: (product ++ (v.text ++ ['"'])), ?_⟩
  rw [versionLine, macroName_eq]

theorem field_versionLine (v : Version) : field 4 (versionLine v) = v.text ++ ['"'] := by
  have hmacro : macroName = "#define".toList ++ ' ' :: "LIBRESSL_VERSION_TEXT".toList := by decide
  have hproduct : '"' :: product = "\"LibreSSL".toList ++ ' ' :: [] := by decide
  have hline : versionLine v = "#define".toList ++ ' ' :: ("LIBRESSL_VERSION_TEXT".toList ++
      ' ' :: ("\"LibreSSL".toList ++ ' ' :: (v.text ++ ['"']))) := by
    rw [versionLine, ← List.cons_append, hproduct, hmacro]
    simp only [List.append_assoc, List.cons_append, List.nil_append]
  have hspace : ' ' ∉ v.text ++ ['"'] := by
    simpa using not_mem_text (v := v) (c := ' ') rfl
  have htab : '\t' ∉ v.text ++ ['"'] := by
    simpa using not_mem_text (v := v) (c := '\t') rfl
  have hblank : ∀ c ∈ v.text ++ ['"'], (c = ' ' || c = '\t') = false := fun c hc => by
    simp [ne_of_mem_of_not_mem hc hspace, ne_of_mem_of_not_mem hc htab]
  have hne : (v.text ++ ['"']).isEmpty = false := by simp
  -- a field without a blank, and the blank behind it
  have hnext : ∀ l rest : Text, l.all (fun c => !(c = ' ' || c = '\t')) = true →
      (l ++ ' ' :: rest).splitOnP (fun c => c = ' ' || c = '\t') =
        l :: rest.splitOnP fun c => c = ' ' || c = '\t' := fun l rest hl => by
    have hfree : ∀ c ∈ l, (decide (c = ' ') || decide (c = '\t')) = false := fun c hc => by
      simpa using List.all_eq_true.mp hl c hc
    exact List.splitOnP_append_cons_of_forall_mem hfree ' ' rfl rest
  rw [field, hline, hnext _ _ (by decide), hnext _ _ (by decide), hnext _ _ (by decide),
    List.splitOnP_eq_singleton hblank]
  simp [List.filter, hne]

theorem versionFile_header {before after : List Text} (h : Header before after) (v : Version) :
    versionFile (before ++ versionLine v :: after) = v.text := by
  have htext : '"' ∉ v.text := not_mem_text rfl
  have hcut : cutQuote (v.text ++ ['"']) = v.text := by
    rw [cutQuote, List.takeWhile_append_of_pos fun c hc =>
      decide_eq_true (ne_of_mem_of_not_mem hc htext)]
    exact List.append_nil _
  rw [versionFile, List.filter_append, filter_nil h.before,
    List.filter_cons_of_pos (mentions_versionLine v)]
  show cutQuote (field 4 (versionLine v)) = _
  rw [field_versionLine, hcut]

/-- The version is taken out of its line, and the rest of the line is kept. -/
theorem sedVersion_line (version : Text) (v : Version) :
    sedVersion version (versionLine v) =
      macroName ++ ' ' :: '"' :: (product ++ (version ++ ['"'])) := by
  have htext : ∀ c ∈ v.text, decide (c ≠ '"') = true := fun c hc =>
    decide_eq_true (ne_of_mem_of_not_mem hc (not_mem_text rfl))
  -- the group goes up to the version
  have hquote : ∀ s, (text ('"' :: product)).run ('"' :: (product ++ s)) =
      [⟨'"' :: product, s, []⟩] := fun s => run_text s ('"' :: product)
  have hblank : ∀ s, (Regex.seq (.plus isSpace) (.text ('"' :: product))).run
      (' ' :: '"' :: (product ++ s)) = [⟨' ' :: '"' :: product, s, []⟩] := fun s => by
    have hsettled : Settled (.plus isSpace) isSpace ([' '] ++ '"' :: (product ++ s))
        ⟨[' '], '"' :: (product ++ s), []⟩ :=
      Settled.plus (List.cons_ne_nil _ _) (List.all_eq_true.mp (by decide)) fun c hc => by
        obtain rfl := Option.some.inj hc
        decide
    have hrejects : Rejects (.text ('"' :: product)) isSpace := Rejects.seq <| Rejects.one
      fun c hc => decide_eq_false fun heq => by
        subst heq
        exact absurd hc (by decide)
    exact (hsettled.run_seq hrejects).trans (by rw [hquote]; rfl)
  have hgroup : ∀ s, (Regex.group (.seq (.text macroName) (.seq (.plus isSpace)
      (.text ('"' :: product))))).run (macroName ++ ' ' :: '"' :: (product ++ s)) =
      [⟨macroName ++ ' ' :: '"' :: product, s, [macroName ++ ' ' :: '"' :: product]⟩] := fun s => by
    rw [run, run_seq_of_eq (run_text _ macroName), hblank]
    rfl
  have hrest : (Regex.seq (.many (· ≠ '"')) (.one (· = '"'))).run (v.text ++ ['"']) =
      [⟨v.text ++ ['"'], [], []⟩] := by
    have hsettled := Settled.many (s := ['"']) htext fun c hc => by
      obtain rfl := Option.some.inj hc
      rfl
    refine (hsettled.run_seq (Rejects.one fun c hc => ?_)).trans rfl
    exact decide_eq_false (of_decide_eq_true hc)
  have hsearch : sedRegex.search (versionLine v) = some ([], ⟨versionLine v, [],
      [macroName ++ ' ' :: '"' :: product]⟩) := by
    refine search_of_head ?_
    rw [sedRegex, versionLine, run_seq_of_eq (hgroup _), hrest]
    simp [Match.append]
  rw [sedVersion, hsearch]
  simp [reference]

theorem sedVersion_plain (version : Text) {l : Text} (hl : Plain l) : sedVersion version l = l := by
  have hnone : sedRegex.search l = none :=
    Option.isNone_iff_eq_none.mp (Option.isSome_eq_false_iff.mp hl.sed)
  rw [sedVersion, hnone]

/-- **`update.sh`** leaves the version in the file `VERSION`, and its line in the header. -/
theorem updateVersion_leaves {before after : List Text} (h : Header before after) (v : Version) :
    updateVersion v.rcText (before ++ versionLine v.release :: after) =
      (v.text, before ++ versionLine v :: after) := by
  have hkept : ∀ (version : Text) (ls : List Text), (∀ l ∈ ls, Plain l) →
      ls.map (sedVersion version) = ls := fun version ls hls =>
    (List.map_congr_left fun l hl => sedVersion_plain version (hls l hl)).trans (List.map_id ls)
  have hbefore : ∀ l ∈ before, Plain l := fun l hl => plain_of_silent (h.before l hl)
  have htext := text_release v
  rw [updateVersion, versionFile_header h]
  cases hrc : v.rc with
  | none =>
      have hsame : v.release = v := by rw [Version.release, ← hrc]
      rw [Version.rcText, hrc, hsame]
      exact if_neg (not_not.mpr rfl)
  | some r =>
      have hrcText : v.rcText = decimal r := by
        rw [Version.rcText, hrc]
        rfl
      rw [Version.suffix, hrc] at htext
      rw [hrcText, if_pos (decimal_isNumber r).ne_nil]
      dsimp only at htext ⊢
      rw [htext, List.map_append, List.map_cons, hkept _ _ hbefore, hkept _ _ h.after,
        sedVersion_line]
      rfl

/-! ## What is found -/

/-- A release is found, with the last digit of its first number. -/
theorem findLibreSSL_release {before after : List Text} (h : Header before after) {v : Version}
    (hrc : v.rc = none) :
    findLibreSSL (before ++ versionLine v :: after) =
      some ⟨decimal (v.major % 10), decimal v.minor, decimal v.revision⟩ := by
  have hsemicolon : ∀ n, ';' ∉ decimal n := fun n => (decimal_isNumber n).not_mem rfl
  rw [findLibreSSL, fileStrings_header h, release_replaced hrc]
  show (do
    let major ← listGet (decimal (v.major % 10) ++ ';' :: (decimal v.minor ++ ';' ::
      decimal v.revision)) 0
    let minor ← listGet (decimal (v.major % 10) ++ ';' :: (decimal v.minor ++ ';' ::
      decimal v.revision)) 1
    let revision ← listGet (decimal (v.major % 10) ++ ';' :: (decimal v.minor ++ ';' ::
      decimal v.revision)) 2
    return ⟨major, minor, revision⟩ : Option Found) = _
  simp only [listGet_semicolons (hsemicolon _) (hsemicolon _) (hsemicolon _)]
  rfl

/-- A release candidate is not. -/
theorem findLibreSSL_candidate {before after : List Text} (h : Header before after) {v : Version}
    {r : Nat} (hrc : v.rc = some r) : findLibreSSL (before ++ versionLine v :: after) = none := by
  have hsame : ∀ f, regexReplace versionRegex f (versionLine v) = some (versionLine v) :=
    fun f => replaceAll_of_none (candidate_not_found hrc)
  have hsemicolon : ';' ∉ versionLine v := by
    have htext : ';' ∉ v.text := not_mem_text rfl
    have hmacro : ';' ∉ macroName := by decide
    have hproduct : ';' ∉ product := by decide
    simp [versionLine, htext, hmacro, hproduct]
  have hget : listGet (versionLine v) 1 = none := by
    rw [listGet, List.splitOn_eq_singleton hsemicolon]
    split <;> rfl
  rw [findLibreSSL, fileStrings_header h, hsame]
  show ((listGet (versionLine v) 0).bind fun major => (listGet (versionLine v) 1).bind _) = none
  rw [hget]
  cases listGet (versionLine v) 0 <;> rfl

/-! ## From the build to CMake -/

/-- What CMake finds of a version that was built, where the header has other lines as well. -/
def published (before after : List Text) (v : Version) : Option Found :=
  findLibreSSL (updateVersion v.rcText (before ++ versionLine v.release :: after)).2

theorem Found.version_inj {x y z x' y' z' : Text} (hx : '.' ∉ x) (hy : '.' ∉ y) (hz : '.' ∉ z)
    (hx' : '.' ∉ x') (hy' : '.' ∉ y') (hz' : '.' ∉ z')
    (h : Found.version ⟨x, y, z⟩ = Found.version ⟨x', y', z'⟩) : x = x' ∧ y = y' ∧ z = z' := by
  have hsplit : ∀ {x y z : Text}, '.' ∉ x → '.' ∉ y → '.' ∉ z →
      (Found.version ⟨x, y, z⟩).splitOn '.' = [x, y, z] := fun hx hy hz => by
    rw [Found.version, List.splitOn_append_cons_self_of_not_mem hx,
      List.splitOn_append_cons_self_of_not_mem hy, List.splitOn_eq_singleton hz]
  have hparts := hsplit hx hy hz
  rw [h, hsplit hx' hy' hz'] at hparts
  simpa [eq_comm] using hparts

section Published

variable {before after : List Text} {v w : Version} {f g : Found}

theorem published_release (h : Header before after) (hrc : v.rc = none) :
    published before after v =
      some ⟨decimal (v.major % 10), decimal v.minor, decimal v.revision⟩ := by
  rw [published, updateVersion_leaves h, findLibreSSL_release h hrc]

theorem published_candidate (h : Header before after) {r : Nat} (hrc : v.rc = some r) :
    published before after v = none := by
  rw [published, updateVersion_leaves h, findLibreSSL_candidate h hrc]

theorem published_iff (h : Header before after) :
    published before after v = some ⟨decimal v.major, decimal v.minor, decimal v.revision⟩ ↔
      v.major < 10 ∧ v.rc = none := by
  cases hrc : v.rc with
  | none =>
      rw [published_release h hrc, ← decimal_mod_eq_iff]
      simp
  | some r =>
      rw [published_candidate h hrc]
      simp

/-- Releases have the same `LIBRESSL_VERSION` if they differ in front of the last digit only. -/
theorem published_version_iff (h : Header before after) (hv : published before after v = some f)
    (hw : published before after w = some g) :
    f.version = g.version ↔
      v.major % 10 = w.major % 10 ∧ v.minor = w.minor ∧ v.revision = w.revision := by
  have hrelease : ∀ {v : Version} {f : Found}, published before after v = some f →
      f = ⟨decimal (v.major % 10), decimal v.minor, decimal v.revision⟩ := by
    intro v f hv
    cases hrc : v.rc with
    | none => exact Option.some.inj (hv.symm.trans (published_release h hrc))
    | some r =>
        rw [published_candidate h hrc] at hv
        cases hv
  obtain rfl := hrelease hv
  obtain rfl := hrelease hw
  have hdot : ∀ n, '.' ∉ decimal n := fun n => (decimal_isNumber n).not_mem rfl
  constructor
  · intro heq
    obtain ⟨hmajor, hminor, hrevision⟩ := Found.version_inj (hdot _) (hdot _) (hdot _) (hdot _)
      (hdot _) (hdot _) heq
    exact ⟨decimal_inj hmajor, decimal_inj hminor, decimal_inj hrevision⟩
  · rintro ⟨hmajor, hminor, hrevision⟩
    rw [hmajor, hminor, hrevision]

end Published

/-- **The build and CMake agree** exactly on the releases whose major number is a single digit, and
among what is found only the other digits of that number are lost. -/
theorem versions_round_trip {before after : List Text} (h : Header before after) :
    (∀ v, published before after v =
        some ⟨decimal v.major, decimal v.minor, decimal v.revision⟩ ↔
      v.major < 10 ∧ v.rc = none) ∧
    ∀ v w f g, published before after v = some f → published before after w = some g →
      (f.version = g.version ↔
        v.major % 10 = w.major % 10 ∧ v.minor = w.minor ∧ v.revision = w.revision) :=
  ⟨fun _ => published_iff h, fun _ _ _ _ hv hw => published_version_iff h hv hw⟩

/-- Lines around the version. -/
def guardLines : List Text :=
  ["#ifndef HEADER_OPENSSLV_H".toList, "#define HEADER_OPENSSLV_H".toList]

/-- The name of the other library stands for the version as well. -/
def endLines : List Text :=
  ["#define OPENSSL_VERSION_TEXT LIBRESSL_VERSION_TEXT".toList, "#endif".toList]

theorem versions_round_trip_sample :
    (published guardLines endLines ⟨4, 3, 12, none⟩).map Found.version = some "4.3.12".toList := by
  have hplain : ∀ l ∈ endLines, (sedRegex.search l).isSome = false
      ∧ (lineRegex.search l).isSome = false := by decide +kernel
  have h : Header guardLines endLines :=
    ⟨by decide, fun l hl => ⟨(hplain l hl).1, (hplain l hl).2⟩⟩
  rw [((versions_round_trip h).1 ⟨4, 3, 12, none⟩).mpr ⟨by decide, rfl⟩]
  decide

/-- A release candidate is not found, and the major number is cut down. -/
theorem versions_lost : published guardLines endLines ⟨4, 5, 0, some 1⟩ = none ∧
    published guardLines endLines ⟨14, 1, 0, none⟩ = some ⟨['4'], ['1'], ['0']⟩ ∧
    published guardLines endLines ⟨4, 1, 0, none⟩ = some ⟨['4'], ['1'], ['0']⟩ := by
  decide +kernel

end LibrePortable.Build
