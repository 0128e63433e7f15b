import LibrePortable.Getopt.Getopt

/-!
# Which elements a scan consumes

A second reading of the argument vector, by recursion on the list of its elements and
with no state: how many elements an option takes besides its own, and from that which
elements are options or their arguments. The order in which the parser leaves the vector
is stated against it.
-/

namespace LibrePortable.Getopt

/-- What decides how an element is read. -/
structure Rules where
  options : Text
  table : Option (List LongOption)
  longonly : Bool

/-- A long option that is met in front of this text: whether it takes the next element as its
argument. None where the text is left to be read as letters. -/
def longTakes (table : List LongOption) (longonly shortToo : Bool) (text : Text) : Option Bool :=
  let r := search table text shortToo longonly
  if !r.exactMatch ∧ r.secondPartialMatch then some false
  else
    match r.found with
    | some (_, o) => some (o.hasArg = requiredArgument ∧ (splitEqual text).2 = none)
    | none => if shortToo then none else some false

namespace Rules

/-- Whether the text at a place in an element is a long option, and then what it takes. -/
def long (r : Rules) (ch : Letter) (t : Text) : Option Bool :=
  match r.table with
  | none => none
  | some table =>
      if ch.val = 45 then longTakes table r.longonly false t
      else if r.longonly then
        longTakes table r.longonly (ch.val ≠ colon ∧ (strchr r.options ch.val).isSome) (ch :: t)
      else none

/-- One element, if there is one. -/
def one (rest : List Text) : Nat := min 1 rest.length

/-- What `-W` takes, when `t` follows it in its element. -/
def wTakes (r : Rules) (table : List LongOption) (rest : List Text) (t : Text) : Nat :=
  if t ≠ [] then if longTakes table r.longonly false t = some true then one rest else 0
  else
    match rest with
    | [] => 0
    | e :: rest => 1 + if longTakes table r.longonly false e = some true then one rest else 0

/-- What a letter of the option string takes, when `t` follows it in its element; `more` is what
the letters of `t` take. -/
def knownTakes (rest : List Text) (oli t : Text) (more : Nat) : Nat :=
  if deref oli.tail ≠ colon then more
  else if t ≠ [] ∨ deref oli.tail.tail = colon then 0
  else one rest

/-- What a letter takes. -/
def letterTakes (r : Rules) (rest : List Text) (ch : Letter) (t : Text) (more : Nat) : Nat :=
  match if ch.val = colon then none else strchr r.options ch.val with
  | none => more
  | some oli =>
      match r.table with
      | some table =>
          if ch.val = 87 ∧ deref oli.tail = 59 then r.wTakes table rest t
          else knownTakes rest oli t more
      | none => knownTakes rest oli t more

/-- How many of the elements behind it a cluster of letters takes. -/
def cluster (r : Rules) (rest : List Text) : Text → Nat
  | [] => 0
  | ch :: t =>
      match r.long ch t with
      | some true => one rest
      | some false => 0
      | none => r.letterTakes rest ch t (r.cluster rest t)

/-- How many of the elements behind it an option element takes. -/
def takes (r : Rules) (rest : List Text) : Text → Nat
  | [] => 0
  | [dash] => r.letterTakes rest dash [] 0
  | _ :: t => r.cluster rest t

end Rules

/-- The elements of a vector that a scan looks at, each with whether it consumes it, and the
ones behind `--`. -/
structure Layout where
  scanned : List (Text × Bool)
  behind : List Text

namespace Layout

def cons (elem : Text) (consumes : Bool) (l : Layout) : Layout :=
  { l with scanned := (elem, consumes) :: l.scanned }

/-- The options, their arguments, and `--`. -/
def consumed (l : Layout) : List Text := (l.scanned.filter fun x => x.2).map Prod.fst

/-- The elements that were passed over. -/
def operands (l : Layout) : List Text := (l.scanned.filter fun x => !x.2).map Prod.fst

/-- All elements. -/
def elements (l : Layout) : List Text := l.scanned.map Prod.fst ++ l.behind

@[simp] theorem consumed_cons_true (e : Text) (l : Layout) :
    (l.cons e true).consumed = e :: l.consumed := rfl

@[simp] theorem consumed_cons_false (e : Text) (l : Layout) :
    (l.cons e false).consumed = l.consumed := rfl

@[simp] theorem operands_cons_true (e : Text) (l : Layout) :
    (l.cons e true).operands = l.operands := rfl

@[simp] theorem operands_cons_false (e : Text) (l : Layout) :
    (l.cons e false).operands = e :: l.operands := rfl

@[simp] theorem behind_cons (e : Text) (b : Bool) (l : Layout) :
    (l.cons e b).behind = l.behind := rfl

@[simp] theorem elements_cons (e : Text) (b : Bool) (l : Layout) :
    (l.cons e b).elements = e :: l.elements := rfl

end Layout

/-- Whether an element is `--`. -/
def isDashes (elem : Text) : Bool :=
  deref elem.tail = 45 ∧ deref elem.tail.tail = 0

namespace Rules

/-- The layout of a list of elements, the first `k` of which are taken. -/
def layout (r : Rules) : Nat → List Text → Layout
  | _, [] => ⟨[], []⟩
  | k + 1, e :: es => (r.layout k es).cons e true
  | 0, e :: es =>
      if isOperand r.options e then (r.layout 0 es).cons e false
      else if isDashes e then ⟨[(e, true)], es⟩
      else (r.layout (r.takes es e) es).cons e true

/-! ## What it says -/

section Facts

variable {r : Rules} {rest : List Text}

theorem one_le (rest : List Text) : one rest ≤ rest.length := Nat.min_le_right ..

theorem wTakes_le (r : Rules) (table : List LongOption) (rest : List Text) (t : Text) :
    r.wTakes table rest t ≤ rest.length := by
  have hone := one_le
  rw [wTakes.eq_def]
  split
  · split
    · exact hone rest
    · exact Nat.zero_le _
  · cases rest with
    | nil => exact Nat.le_refl _
    | cons e rest =>
        have := hone rest
        simp only [List.length_cons]
        split <;> omega

theorem knownTakes_le (rest : List Text) (oli t : Text) {more : Nat} (hmore : more ≤ rest.length) :
    knownTakes rest oli t more ≤ rest.length := by
  rw [knownTakes]
  split
  · exact hmore
  · split
    · exact Nat.zero_le _
    · exact one_le rest

theorem letterTakes_le (r : Rules) (ch : Letter) (t : Text) {more : Nat}
    (hmore : more ≤ rest.length) : r.letterTakes rest ch t more ≤ rest.length := by
  rw [letterTakes]
  split
  · exact hmore
  · split
    · split
      · exact wTakes_le ..
      · exact knownTakes_le rest _ t hmore
    · exact knownTakes_le rest _ t hmore

theorem cluster_le (r : Rules) (rest : List Text) : ∀ t : Text, r.cluster rest t ≤ rest.length
  | [] => Nat.zero_le _
  | ch :: t => by
      rw [cluster]
      split
      · exact one_le rest
      · exact Nat.zero_le _
      · exact letterTakes_le r ch t (cluster_le r rest t)

/-- **The layout loses nothing.** -/
theorem layout_elements (r : Rules) : ∀ (k : Nat) (es : List Text), (r.layout k es).elements = es
  | _, [] => by rw [layout]; rfl
  | k + 1, e :: es => by rw [layout, Layout.elements_cons, layout_elements r k es]
  | 0, e :: es => by
      rw [layout]
      split
      · rw [Layout.elements_cons, layout_elements r 0 es]
      · split
        · rfl
        · rw [Layout.elements_cons, layout_elements r _ es]

/-- The elements that an option takes, and the ones after them. -/
structure TakesFirst (l : Layout) (k : Nat) (es : List Text) (l' : Layout) : Prop where
  consumed : l.consumed = es.take k ++ l'.consumed
  operands : l.operands = l'.operands
  behind : l.behind = l'.behind

theorem layout_takes (r : Rules) : ∀ (k : Nat) (es : List Text), k ≤ es.length →
    TakesFirst (r.layout k es) k es (r.layout 0 (es.drop k))
  | 0, es, _ => ⟨rfl, rfl, rfl⟩
  | k + 1, [], h => absurd h (Nat.not_succ_le_zero k)
  | k + 1, e :: es, h => by
      have hrest := layout_takes r k es (Nat.le_of_succ_le_succ h)
      rw [layout]
      exact ⟨congrArg (e :: ·) hrest.consumed, hrest.operands, hrest.behind⟩

end Facts

end Rules

end LibrePortable.Getopt
