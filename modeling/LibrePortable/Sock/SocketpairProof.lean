import LibrePortable.Sock.Socketpair

/-!
# The two ends belong together

Both connections in question, the one `socketpair` made and the one it accepted, are
alive when the second is taken from the queue. So they have different names unless
they are the same, and the names, once given, do not change; comparing them later is
as good as comparing them then.
-/

namespace LibrePortable.Sock

open Lib Prog Win Net

variable {s s' : Net}

/-! ## One connection -/

theorem connected_new (s : Net) (l : Handle) (addr name : SockAddr) (own : Bool) :
    (s.connected l addr name own).conn s.made = ⟨name, addr, own, false, true⟩ :=
  Function.update_self ..

theorem connected_old {l : Handle} {addr name : SockAddr} {own : Bool} {c : Nat} (hc : c < s.made) :
    (s.connected l addr name own).conn c = s.conn c := Function.update_of_ne (Nat.ne_of_lt hc) ..

theorem finish_self (s : Net) (c : Nat) :
    (s.finish c).conn c = { s.conn c with finished := true } := Function.update_self ..

theorem finish_ne {c d : Nat} (h : c ≠ d) : (s.finish d).conn c = s.conn c :=
  Function.update_of_ne h ..

theorem reset_self (s : Net) (c : Nat) :
    (s.reset c).conn c = { s.conn c with alive := false } := Function.update_self ..

theorem reset_ne {c d : Nat} (h : c ≠ d) : (s.reset d).conn c = s.conn c :=
  Function.update_of_ne h ..

/-- Closing an end changes nothing else about a connection. -/
theorem finish_conn (s : Net) (c d : Nat) : ((s.finish d).conn c).alive = (s.conn c).alive
    ∧ ((s.finish d).conn c).client = (s.conn c).client
    ∧ ((s.finish d).conn c).server = (s.conn c).server
    ∧ ((s.finish d).conn c).own = (s.conn c).own := by
  by_cases hcd : c = d
  · subst hcd; rw [finish_self]; exact ⟨rfl, rfl, rfl, rfl⟩
  · rw [finish_ne hcd]; exact ⟨rfl, rfl, rfl, rfl⟩

/-- A reset leaves the ends of a connection as they were. -/
theorem reset_conn (s : Net) (c d : Nat) : ((s.reset d).conn c).client = (s.conn c).client
    ∧ ((s.reset d).conn c).server = (s.conn c).server
    ∧ ((s.reset d).conn c).own = (s.conn c).own := by
  by_cases hcd : c = d
  · subst hcd; rw [reset_self]; exact ⟨rfl, rfl, rfl⟩
  · rw [reset_ne hcd]; exact ⟨rfl, rfl, rfl⟩

/-! ## What others cannot change -/

/-- Others leave the sockets of this process alone, and every connection its ends. -/
theorem moves_frame (h : Moves s s') : s'.role = s.role ∧ s.made ≤ s'.made ∧ s'.taken = s.taken
    ∧ ∀ c < s.made, (s'.conn c).client = (s.conn c).client ∧ (s'.conn c).server = (s.conn c).server
      ∧ (s'.conn c).own = (s.conn c).own := by
  cases h with
  | connect _ _ =>
      refine ⟨rfl, Nat.le_succ _, rfl, fun c hc => ?_⟩
      rw [connected_old hc]
      exact ⟨rfl, rfl, rfl⟩
  | @close d _ => exact ⟨rfl, Nat.le_refl _, rfl, fun c _ => (finish_conn s c d).2⟩
  | @reset d _ => exact ⟨rfl, Nat.le_refl _, rfl, fun c _ => reset_conn s c d⟩

/-- A connection whose connecting end this process holds stays alive. -/
theorem moves_alive (h : Moves s s') {x : Handle} {c : Nat} (hx : s.role x = some (.client c))
    (hc : c < s.made) (ha : (s.conn c).alive = true) : (s'.conn c).alive = true := by
  cases h with
  | connect _ _ => rw [connected_old hc]; exact ha
  | @close d _ => exact (finish_conn s c d).1.trans ha
  | @reset d hd => rw [reset_ne (hd x c hx)]; exact ha

/-! ## The network stays in order -/

theorem ok_connected (hs : s.Ok) {l : Handle} {addr name : SockAddr} (own : Bool)
    (hl : s.role l = some (.listening addr)) (hfree : s.NameFree addr name) :
    (s.connected l addr name own).Ok := by
  have hnew := connected_new s l addr name own
  have hold : ∀ c < s.made, (s.connected l addr name own).conn c = s.conn c :=
    fun c hc => connected_old hc
  have hcases : ∀ c, c < s.made + 1 → c < s.made ∨ c = s.made := fun c hc => by omega
  constructor
  · intro c hc d hd
    -- the new connection took a name that was free at its listener
    rcases hcases c hc with hc | rfl <;> rcases hcases d hd with hd | rfl
    · rw [hold c hc, hold d hd]; exact hs.names c hc d hd
    · rw [hold c hc, hnew]
      exact fun hac _ hsc hcl => absurd hcl (hfree c hc hac hsc)
    · rw [hold d hd, hnew]
      exact fun _ had hsd hcl => absurd hcl.symm (hfree d hd had hsd.symm)
    · exact fun _ _ _ _ => rfl
  · intro l' c hc
    -- a queue holds what it held before, and at `l` the new connection
    have hmem : c ∈ s.queue l' ∨ (l' = l ∧ c = s.made) := by
      by_cases hll : l' = l
      · subst hll
        have hq : (s.connected l' addr name own).queue l' = s.queue l' ++ [s.made] :=
          Function.update_self ..
        rw [hq] at hc
        rcases List.mem_append.mp hc with hc | hc
        · exact Or.inl hc
        · exact Or.inr ⟨rfl, List.mem_singleton.mp hc⟩
      · have hq : (s.connected l addr name own).queue l' = s.queue l' :=
          Function.update_of_ne hll ..
        rw [hq] at hc
        exact Or.inl hc
    rcases hmem with hc | ⟨rfl, rfl⟩
    · obtain ⟨hlt, ha, hr⟩ := hs.queued l' c hc
      rw [hold c hlt]
      exact ⟨Nat.lt_succ_of_lt hlt, ha, hr⟩
    · rw [hnew]
      exact ⟨Nat.lt_succ_self _, rfl, hl⟩

theorem ok_moves (hs : s.Ok) (h : Moves s s') : s'.Ok := by
  cases h with
  | connect hl hfree => exact ok_connected hs false hl hfree
  | @close d _ =>
      constructor
      · intro c hc d' hd'
        obtain ⟨ha, hcl, hsrv, -⟩ := finish_conn s c d
        obtain ⟨ha', hcl', hsrv', -⟩ := finish_conn s d' d
        rw [ha, hcl, hsrv, ha', hcl', hsrv']
        exact hs.names c hc d' hd'
      · intro l c hc
        obtain ⟨ha, -, hsrv, -⟩ := finish_conn s c d
        rw [ha, hsrv]
        exact hs.queued l c hc
  | @reset d _ =>
      have hself : ((s.reset d).conn d).alive = false := by rw [reset_self]
      constructor
      · intro c hc d' hd' hac had
        -- what is alive afterwards is not the one that was reset
        have hcd : c ≠ d := by rintro rfl; rw [hself] at hac; cases hac
        have hdd : d' ≠ d := by rintro rfl; rw [hself] at had; cases had
        rw [reset_ne hcd] at hac ⊢
        rw [reset_ne hdd] at had ⊢
        exact hs.names c hc d' hd' hac had
      · intro l c hc
        obtain ⟨hc, hcd⟩ := List.mem_filter.mp hc
        rw [reset_ne (of_decide_eq_true hcd)]
        exact hs.queued l c hc

/-- A socket that is not listening can be used for anything else. -/
theorem ok_setRole (hs : s.Ok) {x : Handle} {r : Option Role}
    (hx : ∀ a, s.role x ≠ some (.listening a)) : (s.setRole x r).Ok := by
  refine ⟨hs.names, fun l c hc => ?_⟩
  obtain ⟨hlt, ha, hr⟩ := hs.queued l c hc
  have hlx : l ≠ x := by
    intro heq
    subst heq
    exact hx _ hr
  exact ⟨hlt, ha, (Function.update_of_ne hlx ..).trans hr⟩

/-- A socket with an empty queue, too. -/
theorem ok_setRole_clear (hs : s.Ok) {x : Handle} {r : Option Role} :
    ((s.setRole x r).setQueue x []).Ok := by
  refine ⟨hs.names, fun l c hc => ?_⟩
  by_cases hlx : l = x
  · subst hlx
    have hq : ((s.setRole l r).setQueue l []).queue l = [] := Function.update_self ..
    rw [hq] at hc
    exact absurd hc List.not_mem_nil
  · have hq : ((s.setRole x r).setQueue x []).queue l = s.queue l := Function.update_of_ne hlx ..
    rw [hq] at hc
    obtain ⟨hlt, ha, hr⟩ := hs.queued l c hc
    exact ⟨hlt, ha, (Function.update_of_ne hlx ..).trans hr⟩

/-! ## The stages -/

/-- The listener is used for `r`. -/
structure Using (l : Handle) (r : Role) (s : Net) : Prop where
  ok : s.Ok
  listener : s.role l = some r

/-- The listener is listening, and there is a socket to connect to it. -/
structure Ready (l sv0 : Handle) (addr : SockAddr) (s : Net) : Prop
    extends Using l (.listening addr) s where
  plain : s.role sv0 = some .plain

/-- The connection has been made: number `o`, with `sv0` as its connecting end. -/
structure Connected (l sv0 : Handle) (o : Nat) (addr : SockAddr) (s : Net) : Prop
    extends Using l (.listening addr) s where
  client : s.role sv0 = some (.client o)
  made : o < s.made
  own : (s.conn o).own = true
  alive : (s.conn o).alive = true
  server : (s.conn o).server = addr

/-- A connection has been accepted: number `c`, named differently unless it is the same. -/
structure Accepted (l sv0 sv1 : Handle) (o c : Nat) (s : Net) : Prop where
  listener : ∃ addr, s.role l = some (.listening addr)
  client : s.role sv0 = some (.client o)
  server : s.role sv1 = some (.server c)
  made : o < s.made ∧ c < s.made
  own : (s.conn o).own = true
  taken : s.taken = some c
  names : (s.conn o).client = (s.conn c).client → o = c

theorem using_drift (l : Handle) (r : Role) : ∀ s s', Using l r s → world.Drift s s' →
    Using l r s' :=
  fun _ _ hi h => ⟨ok_moves hi.ok h, by rw [(moves_frame h).1]; exact hi.listener⟩

theorem ready_drift (l sv0 : Handle) (addr : SockAddr) : ∀ s s', Ready l sv0 addr s →
    world.Drift s s' → Ready l sv0 addr s' :=
  fun s s' hi h =>
    ⟨using_drift l _ s s' hi.toUsing h, by rw [(moves_frame h).1]; exact hi.plain⟩

theorem connected_drift (l sv0 : Handle) (o : Nat) (addr : SockAddr) : ∀ s s',
    Connected l sv0 o addr s → world.Drift s s' → Connected l sv0 o addr s' := by
  intro s s' hi h
  obtain ⟨hrole, hmade, -, hconn⟩ := moves_frame h
  obtain ⟨-, hsrv, hown⟩ := hconn o hi.made
  exact
    { toUsing := using_drift l _ s s' hi.toUsing h
      client := by rw [hrole]; exact hi.client
      made := Nat.lt_of_lt_of_le hi.made hmade
      own := hown.trans hi.own
      alive := moves_alive h hi.client hi.made hi.alive
      server := hsrv.trans hi.server }

theorem accepted_drift (l sv0 sv1 : Handle) (o c : Nat) : ∀ s s', Accepted l sv0 sv1 o c s →
    world.Drift s s' → Accepted l sv0 sv1 o c s' := by
  intro s s' hi h
  obtain ⟨hrole, hmade, htaken, hconn⟩ := moves_frame h
  obtain ⟨hcl, -, hown⟩ := hconn o hi.made.1
  obtain ⟨hcl', -, -⟩ := hconn c hi.made.2
  exact
    { listener := by rw [hrole]; exact hi.listener
      client := by rw [hrole]; exact hi.client
      server := by rw [hrole]; exact hi.server
      made := ⟨Nat.lt_of_lt_of_le hi.made.1 hmade, Nat.lt_of_lt_of_le hi.made.2 hmade⟩
      own := hown.trans hi.own
      taken := htaken.trans hi.taken
      names := by rw [hcl, hcl']; exact hi.names }

/-! ## The program, from the end -/

/-- What `socketpair` may come back with: 0 only with the two ends of one connection of
its own, and -1 whenever the connection it accepted was foreign. -/
structure Good (res : PairResult) (s : Net) : Prop where
  rc : res.rc = 0 ∨ res.rc = -1
  paired : res.rc = 0 → ∃ c, (s.conn c).own = true ∧ s.role res.sv0 = some (.client c)
    ∧ s.role res.sv1 = some (.server c)
  foreign : ∀ c, s.taken = some c → (s.conn c).own = false → res.rc = -1

theorem good_of_rc {res : PairResult} (h : res.rc = -1) : Good res s :=
  ⟨Or.inr h, fun h0 => absurd (h.symm.trans h0) (by decide), fun _ _ _ => h⟩

/-- The error path returns -1, whatever it meets. -/
theorem fail_good {l sv0 sv1 : Handle} {tr : List (Event PairCall PairAnswer)} {res : PairResult}
    (h : Exec world (fail l sv0 sv1) s tr res s') : Good res s' := by
  obtain ⟨_, _, -, h₁⟩ := runs_call.mp h.runs
  obtain ⟨_, _, -, h₂⟩ := runs_call.mp h₁
  obtain ⟨_, _, -, h₃⟩ := runs_call.mp h₂
  obtain ⟨_, _, -, h₄⟩ := runs_call.mp h₃
  obtain ⟨_, _, -, h₅⟩ := runs_call.mp h₄
  obtain ⟨-, rfl⟩ := runs_ret.mp h₅
  exact good_of_rc rfl

/-- The two ends belong together. -/
structure Joined (sv0 sv1 : Handle) (o : Nat) (s : Net) : Prop where
  client : s.role sv0 = some (.client o)
  server : s.role sv1 = some (.server o)
  made : o < s.made
  own : (s.conn o).own = true
  taken : s.taken = some o

theorem joined_drift (sv0 sv1 : Handle) (o : Nat) : ∀ s s', Joined sv0 sv1 o s →
    world.Drift s s' → Joined sv0 sv1 o s' := by
  intro s s' hi h
  obtain ⟨hrole, hmade, htaken, hconn⟩ := moves_frame h
  exact
    { client := by rw [hrole]; exact hi.client
      server := by rw [hrole]; exact hi.server
      made := Nat.lt_of_lt_of_le hi.made hmade
      own := (hconn o hi.made).2.2.trans hi.own
      taken := htaken.trans hi.taken }

theorem Joined.good {sv0 sv1 : Handle} {o : Nat} (hi : Joined sv0 sv1 o s) :
    Good ⟨0, sv0, sv1⟩ s where
  rc := Or.inl rfl
  paired _ := ⟨o, hi.own, hi.client, hi.server⟩
  foreign c hc hown := by
    obtain rfl : o = c := Option.some.inj (hi.taken.symm.trans hc)
    rw [hi.own] at hown
    cases hown

/-- Closing the listener and opening sentinels does not touch the two ends. -/
theorem finish_good {l sv0 sv1 : Handle} {o : Nat} {tr : List (Event PairCall PairAnswer)}
    {res : PairResult} (hi : Accepted l sv0 sv1 o o s)
    (h : Exec world (do
      let _ ← Call.closesocket l
      Call.sentinels (sv0, sv1)
      return (⟨0, sv0, sv1⟩ : PairResult)) s tr res s') : Good res s' := by
  obtain ⟨rc, s₀, s₁, tr₁, hi₀, hclose, h₁⟩ :=
    Exec.call_of_stable (accepted_drift l sv0 sv1 o o) h hi
  obtain ⟨addr, hl⟩ := hi₀.listener
  -- the listener is neither of the two ends, so closing it leaves them open
  have hi₁ : Joined sv0 sv1 o s₁ := by
    rcases hclose with ⟨-, -, rfl⟩ | ⟨-, e, rfl⟩
    · have h0 : sv0 ≠ l := by
        intro heq
        subst heq
        cases hl.symm.trans hi₀.client
      have h1 : sv1 ≠ l := by
        intro heq
        subst heq
        cases hl.symm.trans hi₀.server
      exact ⟨(Function.update_of_ne h0 ..).trans hi₀.client,
        (Function.update_of_ne h1 ..).trans hi₀.server, hi₀.made.1, hi₀.own, hi₀.taken⟩
    · exact ⟨hi₀.client, hi₀.server, hi₀.made.1, hi₀.own, hi₀.taken⟩
  -- the sentinels change the descriptor table only
  obtain ⟨_, s₂, s₃, tr₂, hi₂, ⟨T, -, rfl⟩, h₂⟩ :=
    Exec.call_of_stable (joined_drift sv0 sv1 o) h₁ hi₁
  have hi₃ : Joined sv0 sv1 o { s₂ with crt := T } :=
    ⟨hi₂.client, hi₂.server, hi₂.made, hi₂.own, hi₂.taken⟩
  obtain ⟨rfl, hi'⟩ := Exec.ret_of_stable (joined_drift sv0 sv1 o) h₂ hi₃
  exact hi'.good

/-- A name that was found is the name of the connection's client. -/
theorem getsockname_client {x : Handle} {c : Nat} {a : SockAddr} (hx : s.role x = some (.client c))
    (h : s.Answers (.getsockname x) (some a) s') : s' = s ∧ a = (s.conn c).client := by
  rcases h with ⟨-, ha, rfl⟩ | ⟨hc, -⟩
  · rw [localName, hx] at ha
    exact ⟨rfl, Option.some.inj ha⟩
  · cases hc

theorem getpeername_server {x : Handle} {c : Nat} {a : SockAddr} (hx : s.role x = some (.server c))
    (h : s.Answers (.getpeername x) (some a) s') : s' = s ∧ a = (s.conn c).client := by
  rcases h with ⟨-, ha, rfl⟩ | ⟨hc, -⟩
  · rw [peerName, hx] at ha
    exact ⟨rfl, Option.some.inj ha⟩
  · cases hc

/-- **The comparison of names** lets only the connection of its own through. -/
theorem pair_good {l sv0 sv1 : Handle} {o c : Nat} {self peer : SockAddr}
    {tr : List (Event PairCall PairAnswer)} {res : PairResult} (hi : Accepted l sv0 sv1 o c s)
    (hself : (s.conn o).client = self) (hpeer : peer = (s.conn c).client)
    (h : Exec world (pair l sv0 sv1 self peer) s tr res s') : Good res s' := by
  unfold pair at h
  split at h
  · obtain ⟨_, _, s₁, tr₁, -, -, h₁⟩ :=
      Exec.call_of_stable (I := fun _ => True) (fun _ _ _ _ => trivial) h trivial
    exact fail_good h₁
  · rename_i hsame
    -- the three comparisons are all there is to a name
    have heq : self = peer := by
      rw [not_or, not_or, ne_eq, ne_eq, ne_eq, not_not, not_not, not_not] at hsame
      obtain ⟨hf, ha, hport⟩ := hsame
      cases self
      cases peer
      cases hf
      cases ha
      cases hport
      rfl
    obtain rfl : o = c := hi.names (by rw [hself, heq, hpeer])
    exact finish_good hi h

theorem verify_good {l sv0 sv1 : Handle} {o c : Nat} {tr : List (Event PairCall PairAnswer)}
    {res : PairResult} (hi : Accepted l sv0 sv1 o c s)
    (h : Exec world (verify l sv0 sv1) s tr res s') : Good res s' := by
  -- the name of the client does not change between the two queries
  have hstable : ∀ a, ∀ s s', (Accepted l sv0 sv1 o c s ∧ (s.conn o).client = a) →
      world.Drift s s' → Accepted l sv0 sv1 o c s' ∧ (s'.conn o).client = a := by
    intro a s s' hboth hm
    obtain ⟨hi, ha⟩ := hboth
    obtain ⟨-, -, -, hconn⟩ := moves_frame hm
    exact ⟨accepted_drift l sv0 sv1 o c s s' hi hm, (hconn o hi.made.1).1.trans ha⟩
  obtain ⟨(self : Option SockAddr), s₀, s₁, tr₁, hi₀, hself, h₁⟩ :=
    Exec.call_of_stable (accepted_drift l sv0 sv1 o c) h hi
  cases self with
  | none => exact fail_good h₁
  | some self =>
      obtain ⟨rfl, hself⟩ := getsockname_client hi₀.client hself
      obtain ⟨(peer : Option SockAddr), s₂, s₃, tr₂, ⟨hi₂, hself₂⟩, hpeer, h₂⟩ :=
        Exec.call_of_stable (hstable self) h₁ ⟨hi₀, hself.symm⟩
      cases peer with
      | none => exact fail_good h₂
      | some peer =>
          obtain ⟨rfl, hpeer⟩ := getpeername_server hi₂.server hpeer
          exact pair_good hi₂ hself₂ hpeer h₂

/-- What `accept` hands out: the connection that was made, or one with another name. -/
theorem accepted_of_connected {l sv0 sv1 : Handle} {o c : Nat} {addr : SockAddr}
    (hi : Connected l sv0 o addr s) (hc : c ∈ s.queue l) (hfree : s.role sv1 = none) :
    Accepted l sv0 sv1 o c
      { (s.setRole sv1 (some (.server c))).setQueue l ((s.queue l).erase c) with
        taken := some c } := by
  obtain ⟨hlt, halive, hrole⟩ := hi.ok.queued l c hc
  -- what waits in the queue was made to this listener, like the connection of its own
  have hserver : (s.conn c).server = addr :=
    Role.listening.inj (Option.some.inj (hrole.symm.trans hi.listener))
  have hl : l ≠ sv1 := by
    intro heq
    subst heq
    cases hfree.symm.trans hi.listener
  have h0 : sv0 ≠ sv1 := by
    intro heq
    subst heq
    cases hfree.symm.trans hi.client
  exact
    { listener := ⟨addr, (Function.update_of_ne hl ..).trans hi.listener⟩
      client := (Function.update_of_ne h0 ..).trans hi.client
      server := Function.update_self ..
      made := ⟨hi.made, hlt⟩
      own := hi.own
      taken := rfl
      names := hi.ok.names o hi.made c hlt hi.alive halive (hi.server.trans hserver.symm) }

/-- What `connect` makes. -/
theorem connected_of_ready {l l' sv0 : Handle} {addr name : SockAddr} (hi : Ready l sv0 addr s)
    (hl' : s.role l' = some (.listening addr)) (hfree : s.NameFree addr name) :
    Connected l sv0 s.made addr
      ((s.connected l' addr name true).setRole sv0 (some (.client s.made))) := by
  have hl : l ≠ sv0 := by
    intro heq
    subst heq
    cases hi.plain.symm.trans hi.listener
  have hok := ok_connected hi.ok true hl' hfree
  have hnew := connected_new s l' addr name true
  exact
    { ok := ok_setRole hok fun a h => by cases hi.plain.symm.trans h
      listener := (Function.update_of_ne hl ..).trans hi.listener
      client := Function.update_self ..
      made := Nat.lt_succ_self _
      own := congrArg Conn.own hnew
      alive := congrArg Conn.alive hnew
      server := congrArg Conn.server hnew }

/-- **From `listen` on.** -/
theorem rendezvous_good {l : Handle} {addr : SockAddr} {tr : List (Event PairCall PairAnswer)}
    {res : PairResult} (hi : Using l (.bound addr) s)
    (h : Exec world (rendezvous l addr) s tr res s') : Good res s' := by
  -- every call either fails and leads to the error path, or carries the stage on
  obtain ⟨(rc : Int), s₀, s₁, tr₁, hi₀, hlisten, h₁⟩ := Exec.call_of_stable (using_drift l _) h hi
  rcases Exec.ite_inv h₁ with ⟨-, h₁⟩ | ⟨hrc, h₁⟩
  · exact fail_good h₁
  rcases hlisten with ⟨-, a, ha, rfl⟩ | ⟨rfl, -⟩
  · obtain rfl : addr = a := Role.bound.inj (Option.some.inj (hi₀.listener.symm.trans ha))
    have hi₁ : Using l (.listening addr) ((s₀.setRole l (some (.listening addr))).setQueue l []) :=
      ⟨ok_setRole_clear hi₀.ok, Function.update_self ..⟩
    obtain ⟨(sv0 : Int), s₂, s₃, tr₂, hi₂, hsock, h₂⟩ :=
      Exec.call_of_stable (using_drift l _) h₁ hi₁
    rcases Exec.ite_inv h₂ with ⟨-, h₂⟩ | ⟨hsv0, h₂⟩
    · exact fail_good h₂
    rcases hsock with ⟨-, hfree, rfl⟩ | ⟨rfl, -⟩
    · have hl : l ≠ sv0 := by
        intro heq
        subst heq
        cases hfree.symm.trans hi₂.listener
      have hi₃ : Ready l sv0 addr (s₂.setRole sv0 (some .plain)) :=
        { ok := ok_setRole hi₂.ok fun a h => by cases hfree.symm.trans h
          listener := (Function.update_of_ne hl ..).trans hi₂.listener
          plain := Function.update_self .. }
      obtain ⟨(rc' : Int), s₄, s₅, tr₃, hi₄, hconn, h₃⟩ :=
        Exec.call_of_stable (ready_drift l sv0 addr) h₂ hi₃
      rcases Exec.ite_inv h₃ with ⟨-, h₃⟩ | ⟨hrc', h₃⟩
      · exact fail_good h₃
      rcases hconn with ⟨-, -, l', name, hl', hname, rfl⟩ | ⟨rfl, -⟩
      · have hi₅ := connected_of_ready hi₄ hl' hname
        obtain ⟨(sv1 : Int), s₆, s₇, tr₄, hi₆, hacc, h₄⟩ :=
          Exec.call_of_stable (connected_drift l sv0 s₄.made addr) h₃ hi₅
        rcases Exec.ite_inv h₄ with ⟨-, h₄⟩ | ⟨hsv1, h₄⟩
        · exact fail_good h₄
        rcases hacc with ⟨c, hc, -, hfree', rfl⟩ | ⟨rfl, -⟩
        · exact verify_good (accepted_of_connected hi₆ hc hfree') h₄
        · exact absurd rfl hsv1
      · exact absurd (by decide) hrc'
    · exact absurd rfl hsv0
  · exact absurd (by decide) hrc

/--
**The two ends belong together.**

Whatever other processes do to the listener while `socketpair` runs, it returns 0 only
with the connecting and the accepted end of one connection, its own; a foreign
connection accepted first makes it return -1.
-/
theorem socketpair_good {domain type protocol : CInt} {sv : Handle × Handle}
    {tr : List (Event PairCall PairAnswer)} {res : PairResult} (hok : s.Ok)
    (h : Exec world (socketpair domain type protocol sv) s tr res s') : Good res s' := by
  have hret : ∀ {a : PairResult} {s : Net} {tr : List (Event PairCall PairAnswer)}, a.rc = -1 →
      Exec world (.ret a) s tr res s' → Good res s' := by
    intro a s tr ha h
    obtain ⟨rfl, -⟩ := Exec.ret_of_stable (I := fun _ => True) (fun _ _ _ _ => trivial) h trivial
    exact good_of_rc ha
  rcases Exec.ite_inv h with ⟨-, h⟩ | ⟨-, h⟩
  · exact hret rfl h
  obtain ⟨(l : Int), s₀, s₁, tr₁, hok₀, hsock, h₁⟩ :=
    Exec.call_of_stable (I := Net.Ok) (fun _ _ hi hm => ok_moves hi hm) h hok
  rcases Exec.ite_inv h₁ with ⟨-, h₁⟩ | ⟨hl, h₁⟩
  · exact hret rfl h₁
  rcases hsock with ⟨-, hfree, rfl⟩ | ⟨rfl, -⟩
  · have hi₁ : Using l .plain (s₀.setRole l (some .plain)) :=
      ⟨ok_setRole hok₀ fun a h => (by cases hfree.symm.trans h), Function.update_self ..⟩
    obtain ⟨(rc : Int), s₂, s₃, tr₂, hi₂, hopt, h₂⟩ :=
      Exec.call_of_stable (using_drift l _) h₁ hi₁
    rcases Exec.ite_inv h₂ with ⟨-, h₂⟩ | ⟨hrc, h₂⟩
    · exact fail_good h₂
    rcases hopt with ⟨-, rfl⟩ | ⟨rfl, -⟩
    · obtain ⟨(rc' : Int), s₄, s₅, tr₃, hi₄, hbind, h₃⟩ :=
        Exec.call_of_stable (using_drift l _) h₂ hi₂
      rcases Exec.ite_inv h₃ with ⟨-, h₃⟩ | ⟨hrc', h₃⟩
      · exact fail_good h₃
      rcases hbind with ⟨-, -, port, -, rfl⟩ | ⟨rfl, -⟩
      · have hi₅ : Using l (.bound ⟨afInet, inaddrLoopback, port⟩)
            (s₄.setRole l (some (.bound ⟨afInet, inaddrLoopback, port⟩))) :=
          ⟨ok_setRole hi₄.ok fun a h => (by cases hi₄.listener.symm.trans h),
            Function.update_self ..⟩
        obtain ⟨(name : Option SockAddr), s₆, s₇, tr₄, hi₆, hname, h₄⟩ :=
          Exec.call_of_stable (using_drift l _) h₃ hi₅
        cases name with
        | none => exact fail_good h₄
        | some name =>
            rcases hname with ⟨-, hname, rfl⟩ | ⟨hc, -⟩
            · rw [localName, hi₆.listener] at hname
              obtain rfl := Option.some.inj hname
              exact rendezvous_good hi₆ h₄
            · cases hc
      · exact absurd (by decide) hrc'
    · exact absurd rfl hrc
  · exact absurd rfl hl

/-- A process without sockets. -/
def quietNet : Net :=
  { role := fun _ => none, conn := fun _ => ⟨⟨0, 0, 0⟩, ⟨0, 0, 0⟩, false, false, false⟩, made := 0
    queue := fun _ => [], taken := none, lastError := .other 0, crt := ⟨8, fun n => n < 3⟩ }

theorem quietNet_ok : quietNet.Ok :=
  ⟨fun c hc => absurd hc (Nat.not_lt_zero c), fun _ _ hc => absurd hc List.not_mem_nil⟩

/-- A run that returns 0, with a foreign connection behind its own in the queue. -/
theorem exec_pair : ∃ tr s', Exec world (socketpair afUnix sockStream pfUnspec (0, 0)) quietNet tr
    ⟨0, 4, 5⟩ s' := by
  refine Exec.exists_call (e := PairCall.socket) (r := (3 : Int)) (Or.inl ⟨by decide, rfl, rfl⟩) ?_
  refine Exec.exists_call (e := PairCall.setsockopt 3) (r := (0 : Int)) (Or.inl ⟨rfl, rfl⟩) ?_
  refine Exec.exists_call (e := PairCall.bind 3 ⟨afInet, inaddrLoopback, 0⟩) (r := (0 : Int))
    (Or.inl ⟨rfl, rfl, 4000, nofun, rfl⟩) ?_
  refine Exec.exists_call (e := PairCall.getsockname 3)
    (r := some (⟨afInet, inaddrLoopback, 4000⟩ : SockAddr)) (Or.inl ⟨nofun, rfl, rfl⟩) ?_
  refine Exec.exists_call (e := PairCall.listen 3 1) (r := (0 : Int)) (Or.inl ⟨rfl, _, rfl, rfl⟩) ?_
  refine Exec.exists_call (e := PairCall.wsaSocket) (r := (4 : Int))
    (Or.inl ⟨by decide, rfl, rfl⟩) ?_
  refine Exec.exists_call (e := PairCall.connect 4 ⟨afInet, inaddrLoopback, 4000⟩) (r := (0 : Int))
    (Or.inl ⟨rfl, rfl, 3, ⟨afInet, inaddrLoopback, 5000⟩, rfl,
      fun c hc => absurd hc (Nat.not_lt_zero c), rfl⟩) ?_
  -- someone else connects to the listener
  refine Exec.exists_drift (@Moves.connect _ 3 _ ⟨afInet, inaddrLoopback, 6000⟩ rfl ?_) ?_
  · intro c hc _ _
    obtain rfl : c = 0 := Nat.lt_one_iff.mp hc
    decide
  refine Exec.exists_call (e := PairCall.accept 3) (r := (5 : Int))
    (Or.inl ⟨0, List.mem_cons_self .., (by decide : (5 : Int) ≠ -1), rfl, rfl⟩) ?_
  refine Exec.exists_call (e := PairCall.getsockname 4)
    (r := some (⟨afInet, inaddrLoopback, 5000⟩ : SockAddr)) (Or.inl ⟨nofun, rfl, rfl⟩) ?_
  refine Exec.exists_call (e := PairCall.getpeername 5)
    (r := some (⟨afInet, inaddrLoopback, 5000⟩ : SockAddr)) (Or.inl ⟨nofun, rfl, rfl⟩) ?_
  refine Exec.exists_call (e := PairCall.closesocket 3) (r := (0 : Int))
    (Or.inl ⟨rfl, nofun, rfl⟩) ?_
  refine Exec.exists_call (e := PairCall.sentinels (4, 5)) (r := ()) ⟨_, rfl, rfl⟩ ?_
  exact ⟨_, _, .ret _ _⟩

theorem socketpair_good_pair : ∃ tr s', Exec world (socketpair afUnix sockStream pfUnspec (0, 0))
    quietNet tr ⟨0, 4, 5⟩ s' ∧ Good ⟨0, 4, 5⟩ s' := by
  obtain ⟨tr, s', h⟩ := exec_pair
  exact ⟨tr, s', h, socketpair_good quietNet_ok h⟩

end LibrePortable.Sock
