import LibrePortable.Lib.Hoare
import LibrePortable.Win.Consumers

/-!
# Transfers that leave the position alone

`pread` and `pwrite` move the one position a descriptor has, transfer, and move it back.
Between two calls of others nothing of that shows, as long as the seek back works: with
these transfers taken out, a run is still a run, in which at most what the file holds was
changed from outside.
-/

namespace LibrePortable.Win

open Lib Prog Call

/-! ## The file -/

/-- An open file, the `errno` and the memory of the process. -/
structure FileState where
  pos : Nat
  contents : List UInt8
  errno : Errno
  mem : Ptr → UInt8

namespace FileState

/-- The memory with these bytes at `buf`. -/
def put (mem : Ptr → UInt8) (buf : Ptr) (bytes : List UInt8) (p : Ptr) : UInt8 :=
  if buf ≤ p then bytes.getD (p - buf) (mem p) else mem p

/-- The `n` bytes at `buf`. -/
def bytesAt (mem : Ptr → UInt8) (buf : Ptr) (n : Nat) : List UInt8 :=
  (List.range n).map fun i => mem (buf + i)

/-- These bytes written at `p`; a gap in front of them is filled with zeros. -/
def overwrite (contents : List UInt8) (p : Nat) (bytes : List UInt8) : List UInt8 :=
  if bytes = [] then contents
  else (contents ++ List.replicate (p - contents.length) 0).take p ++ bytes ++
    contents.drop (p + bytes.length)

/-- `read`, which may be short. If it fails, the position can be anywhere. -/
def Reads (s : FileState) (buf : Ptr) (n : Nat) (rc : Int) (s' : FileState) : Prop :=
  (∃ k e, k ≤ n ∧ k ≤ s.contents.length - s.pos ∧ rc = (k : Int) ∧
    s' = { s with
      pos := s.pos + k
      errno := e
      mem := put s.mem buf ((s.contents.drop s.pos).take k) }) ∨
  (rc = -1 ∧ ∃ p e bytes, bytes.length ≤ n ∧
    s' = { s with pos := p, errno := e, mem := put s.mem buf bytes })

/-- `write`, which may be short. If it fails, the position can be anywhere, and what is behind
the old one can be anything. -/
def Writes (s : FileState) (buf : Ptr) (n : Nat) (rc : Int) (s' : FileState) : Prop :=
  (∃ k e, k ≤ n ∧ rc = (k : Int) ∧
    s' = { s with
      pos := s.pos + k
      contents := overwrite s.contents s.pos (bytesAt s.mem buf k)
      errno := e }) ∨
  (rc = -1 ∧ ∃ p e behind, s' = { s with
      pos := p
      contents := s.contents.take s.pos ++ behind
      errno := e })

/-- What a seek counts from. -/
def origin (s : FileState) : Whence → Nat
  | .SEEK_SET => 0
  | .SEEK_CUR => s.pos
  | .SEEK_END => s.contents.length

/-- `lseek`. If it fails, the position stays. -/
def Seeks (s : FileState) (offset : Int) (whence : Whence) (rc : Int) (s' : FileState) : Prop :=
  (∃ (e : Errno) (p : Nat), (p : Int) = s.origin whence + offset ∧ rc = (p : Int) ∧
    s' = { s with pos := p, errno := e }) ∨
  (rc = -1 ∧ ∃ e, s' = { s with errno := e })

/-- How the runtime answers for the descriptor `fd`, which is not open for appending. -/
def Answers (fd : CInt) (s : FileState) : (e : WinCall) → Answer e → FileState → Prop
  | .read d buf n, rc, s' => d = fd ∧ s.Reads buf n rc s'
  | .write d buf n, rc, s' => d = fd ∧ s.Writes buf n rc s'
  | .lseek d offset whence, rc, s' => d = fd ∧ s.Seeks offset whence rc s'
  | .getErrno, e, s' => e = s.errno ∧ s' = s
  | .setErrno e, _, s' => s' = { s with errno := e }
  | _, _, _ => False

end FileState

open FileState

/-- The descriptor, used by nobody else. -/
def file (fd : CInt) : Surroundings WinCall Answer FileState where
  Answer := Answers fd
  Drift _ _ := False

/-- The descriptor, with a file and a process that others work on as well, but without moving
the position. -/
def sharedFile (fd : CInt) : Surroundings WinCall Answer FileState where
  Answer := Answers fd
  Drift s s' := s'.pos = s.pos

/-! ## Runs -/

/-- What is done with the descriptor. -/
inductive FileOp where
  | read (buf : Ptr) (n : Nat)
  | write (buf : Ptr) (n : Nat)
  | lseek (offset : Int) (whence : Whence)
  | pread (buf : Ptr) (n : Nat) (offset : Int)
  | pwrite (buf : Ptr) (n : Nat) (offset : Int)

namespace FileOp

def program (fd : CInt) : FileOp → Shim Int
  | read buf n => Call.read fd buf n
  | write buf n => Call.write fd buf n
  | lseek offset whence => Call.lseek fd offset whence
  | pread buf n offset => Win.pread fd buf n offset
  | pwrite buf n offset => Win.pwrite fd buf n offset

/-- Not one of the inserted transfers. -/
def plain : FileOp → Bool
  | read .. | write .. | lseek .. => true
  | pread .. | pwrite .. => false

end FileOp

/-- What the seeks in a trace have returned. -/
def seeks : List (Event WinCall Answer) → List Int
  | [] => []
  | ⟨.lseek _ _ _, rc⟩ :: tr => rc :: seeks tr
  | _ :: tr => seeks tr

/-- An operation that was carried out. -/
structure Ran where
  op : FileOp
  tr : List (Event WinCall Answer)
  rc : Int
  before : FileState
  after : FileState

def Ran.plain (x : Ran) : Bool := x.op.plain

/-- The seek back, which is the third one, failed. -/
def Ran.strays (x : Ran) : Bool := (seeks x.tr)[2]? = some (-1)

/-- Operations in turn; others move in between. -/
inductive FileRun (W : Surroundings WinCall Answer FileState) (fd : CInt) :
    List Ran → FileState → FileState → Prop
  | nil (s : FileState) : FileRun W fd [] s s
  | drift {l : List Ran} {s s₁ s' : FileState} (hdrift : W.Drift s s₁)
      (hrest : FileRun W fd l s₁ s') : FileRun W fd l s s'
  | op {x : Ran} {l : List Ran} {s' : FileState}
      (hexec : Exec W (x.op.program fd) x.before x.tr x.rc x.after)
      (hrest : FileRun W fd l x.after s') : FileRun W fd (x :: l) x.before s'

/-! ## One transfer -/

/-- What a positioned transfer amounts to, where the transfer itself is one of `T`. -/
inductive Positioned (T : FileState → Int → FileState → Prop) (offset : Int) (s : FileState) :
    List (Event WinCall Answer) → Int → FileState → Prop
  /-- One of the first two seeks fails. -/
  | unmoved {tr : List (Event WinCall Answer)} {e : Errno} (hfails : -1 ∈ seeks tr)
      (hseeks : (seeks tr).length ≤ 2) : Positioned T offset s tr (-1) { s with errno := e }
  /-- The transfer is made, and the seek back fails. -/
  | strayed {tr : List (Event WinCall Answer)} {p : Nat} {e e' : Errno} {r : Int} {s₁ : FileState}
      (hp : (p : Int) = offset) (htransfer : T { s with pos := p, errno := e } r s₁)
      (hseeks : (seeks tr)[2]? = some (-1)) : Positioned T offset s tr (-1) { s₁ with errno := e' }
  /-- The transfer is made, and returns what it returns there, with its `errno`. -/
  | back {tr : List (Event WinCall Answer)} {p : Nat} {e : Errno} {r : Int} {s₁ : FileState}
      (hp : (p : Int) = offset) (htransfer : T { s with pos := p, errno := e } r s₁)
      (hseeks : (seeks tr)[2]? ≠ some (-1)) : Positioned T offset s tr r { s₁ with pos := s.pos }

section Transfers

variable {fd : CInt} {offset : Int} {whence : Whence} {α : Type} {s s' : FileState}
  {tr : List (Event WinCall Answer)} {T : FileState → Int → FileState → Prop} {rc : Int}

theorem file_quiet (fd : CInt) (s s' : FileState) : ¬ (file fd).Drift s s' := id

theorem exec_shared {p : Shim α} {a : α} (h : Exec (file fd) p s tr a s') :
    Exec (sharedFile fd) p s tr a s' := by
  have hanswer : ∀ {s e r s'}, (file fd).Answer s e r s' → (sharedFile fd).Answer s e r s' := id
  exact h.mono hanswer fun hdrift => False.elim hdrift

theorem exec_lseek {f : Int → Shim α} {a : α}
    (h : Exec (file fd) (lseek fd offset whence >>= f) s tr a s') :
    ∃ rc s₁ tr', seeks tr = rc :: seeks tr' ∧ s.Seeks offset whence rc s₁ ∧
      Exec (file fd) (f rc) s₁ tr' a s' := by
  obtain ⟨rc, s₁, tr', rfl, ha, hrest⟩ := Exec.call_inv (file_quiet fd) h
  exact ⟨rc, s₁, tr', rfl, ha.2, hrest⟩

theorem FileState.Seeks.failed (h : s.Seeks offset whence (-1) s') :
    ∃ e, s' = { s with errno := e } := by
  rcases h with ⟨e, p, -, hrc, -⟩ | ⟨-, h⟩
  · omega
  · exact h

theorem FileState.Seeks.moved (h : s.Seeks offset whence rc s') (hrc : rc ≠ -1) :
    ∃ (e : Errno) (p : Nat), (p : Int) = s.origin whence + offset ∧ rc = (p : Int) ∧
      s' = { s with pos := p, errno := e } :=
  h.resolve_right fun h => hrc h.1

theorem seeks_append (tr tr' : List (Event WinCall Answer)) :
    seeks (tr ++ tr') = seeks tr ++ seeks tr' := by
  induction tr with
  | nil => rfl
  | cons ev tr ih =>
      obtain ⟨e, r⟩ := ev
      cases e with
      | lseek => exact congrArg (r :: ·) ih
      | _ => exact ih

/-- **A positioned transfer**, seek by seek. -/
theorem positioned_spec {transfer : Shim Int}
    (htransfer : ∀ {s s' tr r}, Exec (file fd) transfer s tr r s' → T s r s' ∧ seeks tr = [])
    (h : Exec (file fd) (positioned fd transfer offset) s tr rc s') :
    Positioned T offset s tr rc s' := by
  -- where the file stands now
  obtain ⟨cpos, s₁, tr₁, hseeks, hcur, h₁⟩ := exec_lseek h
  rcases Exec.ite_inv h₁ with ⟨rfl, hret⟩ | ⟨hcpos, h₁⟩
  · obtain ⟨rfl, rfl, rfl⟩ := Exec.ret_inv (file_quiet fd) hret
    obtain ⟨e, rfl⟩ := hcur.failed
    exact .unmoved (by rw [hseeks]; exact List.mem_cons_self) (by rw [hseeks]; decide)
  obtain ⟨e, here, hhere, rfl, rfl⟩ := hcur.moved hcpos
  obtain rfl : here = s.pos := by
    simp only [origin] at hhere
    omega
  -- to the position asked for
  obtain ⟨there, s₂, tr₂, hseeks₂, hset, h₂⟩ := exec_lseek h₁
  rw [hseeks₂] at hseeks
  rcases Exec.ite_inv h₂ with ⟨rfl, hret⟩ | ⟨hthere, h₂⟩
  · obtain ⟨rfl, rfl, rfl⟩ := Exec.ret_inv (file_quiet fd) hret
    obtain ⟨e', rfl⟩ := hset.failed
    exact .unmoved (by rw [hseeks]; exact List.mem_cons_of_mem _ List.mem_cons_self)
      (by rw [hseeks]; exact Nat.le_refl 2)
  obtain ⟨e', p, hp, rfl, rfl⟩ := hset.moved hthere
  replace hp : (p : Int) = offset := by
    simp only [origin] at hp
    omega
  -- the transfer itself; saving the errno changes nothing
  obtain ⟨tr₃, tr₄, r, s₃, rfl, hexec, h₃⟩ := Exec.bind_inv h₂
  obtain ⟨hT, hnone⟩ := htransfer hexec
  obtain ⟨saved, s₄, tr₅, rfl, hsaved, h₄⟩ := Exec.call_inv (file_quiet fd) h₃
  obtain ⟨rfl, rfl⟩ := hsaved
  -- and back
  obtain ⟨rc', s₅, tr₆, hseeks₃, hback, h₅⟩ := exec_lseek h₄
  replace hseeks : seeks tr = (s.pos : Int) :: p :: rc' :: seeks tr₆ := by
    rw [hseeks, seeks_append, hnone]
    exact congrArg _ (congrArg _ hseeks₃)
  rcases Exec.ite_inv h₅ with ⟨rfl, hret⟩ | ⟨hrc', h₅⟩
  · obtain ⟨rfl, rfl, rfl⟩ := Exec.ret_inv (file_quiet fd) hret
    obtain ⟨e'', rfl⟩ := hback.failed
    exact .strayed (s := s) hp hT (by rw [hseeks]; rfl)
  · obtain ⟨e'', q, hq, -, rfl⟩ := hback.moved hrc'
    obtain rfl : q = s.pos := by
      simp only [origin] at hq
      omega
    obtain ⟨u, s₆, tr₇, rfl, hset, h₆⟩ := Exec.call_inv (file_quiet fd) h₅
    obtain ⟨rfl, rfl, rfl⟩ := Exec.ret_inv (file_quiet fd) h₆
    obtain rfl : s' = _ := hset
    refine .back (s := s) hp hT ?_
    rw [hseeks]
    exact fun h => hrc' (Option.some.inj h)

/-! ## What the operations do -/

theorem exec_read {buf : Ptr} {n : Nat} (h : Exec (file fd) (read fd buf n) s tr rc s') :
    s.Reads buf n rc s' ∧ seeks tr = [] := by
  obtain ⟨r, s₁, tr', rfl, ha, hret⟩ := Exec.call_inv (file_quiet fd) h
  obtain ⟨rfl, rfl, rfl⟩ := Exec.ret_inv (file_quiet fd) hret
  exact ⟨ha.2, rfl⟩

theorem exec_write {buf : Ptr} {n : Nat} (h : Exec (file fd) (write fd buf n) s tr rc s') :
    s.Writes buf n rc s' ∧ seeks tr = [] := by
  obtain ⟨r, s₁, tr', rfl, ha, hret⟩ := Exec.call_inv (file_quiet fd) h
  obtain ⟨rfl, rfl, rfl⟩ := Exec.ret_inv (file_quiet fd) hret
  exact ⟨ha.2, rfl⟩

/-- What is there in front of `offset` stays. -/
def KeepsBefore (offset : Int) (s s' : FileState) : Prop :=
  ∀ i : Nat, (i : Int) < offset → i < s.contents.length → s'.contents[i]? = s.contents[i]?

/-- A read changes nothing in the file. -/
theorem FileState.Reads.contents {buf : Ptr} {n : Nat} (h : s.Reads buf n rc s') :
    s'.contents = s.contents := by
  rcases h with ⟨k, e, -, -, -, rfl⟩ | ⟨-, p, e, bytes, -, rfl⟩
  · rfl
  · rfl

theorem overwrite_before {contents bytes : List UInt8} {p i : Nat} (hi : i < p)
    (hlen : i < contents.length) : (overwrite contents p bytes)[i]? = contents[i]? := by
  rw [overwrite]
  split
  · rfl
  · have htake : i < ((contents ++ List.replicate (p - contents.length) 0).take p).length := by
      rw [List.length_take, List.length_append, List.length_replicate]
      omega
    rw [List.append_assoc, List.getElem?_append_left htake, List.getElem?_take_of_lt hi,
      List.getElem?_append_left hlen]

/-- A write changes nothing in front of the position, whether it works or not. -/
theorem FileState.Writes.keepsBefore {buf : Ptr} {n : Nat} (h : s.Writes buf n rc s') :
    KeepsBefore s.pos s s' := by
  intro i hi hlen
  rcases h with ⟨k, e, -, -, rfl⟩ | ⟨-, p, e, behind, rfl⟩
  · exact overwrite_before (by omega) hlen
  · show (s.contents.take s.pos ++ behind)[i]? = _
    rw [List.getElem?_append_left (by rw [List.length_take]; omega),
      List.getElem?_take_of_lt (by omega)]

/-- What is said of an inserted transfer: it amounts to a transfer at its offset, and nothing in
front of the offset changes. -/
def Ran.Does (x : Ran) : Prop :=
  match x.op with
  | .read .. | .write .. | .lseek .. => True
  | .pread buf n offset =>
      Positioned (fun s => s.Reads buf n) offset x.before x.tr x.rc x.after ∧
        x.after.contents = x.before.contents
  | .pwrite buf n offset =>
      Positioned (fun s => s.Writes buf n) offset x.before x.tr x.rc x.after ∧
        KeepsBefore offset x.before x.after

/-- A fact about the file holds of a positioned transfer if it holds of the transfer. -/
theorem Positioned.keeps {K : List UInt8 → List UInt8 → Prop} (hrefl : ∀ c, K c c)
    (hT : ∀ {s r s'}, (s.pos : Int) = offset → T s r s' → K s.contents s'.contents)
    (h : Positioned T offset s tr rc s') : K s.contents s'.contents := by
  cases h with
  | unmoved _ _ => exact hrefl s.contents
  | @strayed p e _ r s₁ hp htransfer _ =>
      have hkeeps : K s.contents s₁.contents :=
        hT (s := { s with pos := p, errno := e }) hp htransfer
      exact hkeeps
  | @back p e _ s₁ hp htransfer _ =>
      have hkeeps : K s.contents s₁.contents :=
        hT (s := { s with pos := p, errno := e }) hp htransfer
      exact hkeeps

/-- **The position is kept**, unless the seek back fails. -/
theorem Positioned.pos (h : Positioned T offset s tr rc s') (hback : (seeks tr)[2]? ≠ some (-1)) :
    s'.pos = s.pos := by
  cases h with
  | unmoved _ _ => rfl
  | strayed _ _ hseeks => exact absurd hseeks hback
  | back _ _ _ => rfl

theorem ran_does {x : Ran} (h : Exec (file fd) (x.op.program fd) x.before x.tr x.rc x.after) :
    x.Does := by
  obtain ⟨op, tr, rc, s, s'⟩ := x
  cases op with
  | read _ _ => trivial
  | write _ _ => trivial
  | lseek _ _ => trivial
  | pread buf n offset =>
      have hpos := positioned_spec exec_read h
      exact ⟨hpos, hpos.keeps (K := fun c c' => c' = c) (fun _ => rfl)
        fun _ hread => hread.contents⟩
  | pwrite buf n offset =>
      have hpos := positioned_spec exec_write h
      refine ⟨hpos, hpos.keeps (K := fun b b' => ∀ i : Nat, (i : Int) < offset → i < b.length →
        b'[i]? = b[i]?) (fun _ _ _ _ => rfl) fun {s r s'} hp hwrite => ?_⟩
      rw [← hp]
      exact hwrite.keepsBefore

theorem Ran.pos {x : Ran} (hdoes : x.Does) (hplain : x.plain = false) (hback : x.strays = false) :
    x.after.pos = x.before.pos := by
  have hback' : (seeks x.tr)[2]? ≠ some (-1) := of_decide_eq_false hback
  obtain ⟨op, tr, rc, s, s'⟩ := x
  cases op with
  | read _ _ => cases hplain
  | write _ _ => cases hplain
  | lseek _ _ => cases hplain
  | pread buf n offset => exact hdoes.1.pos hback'
  | pwrite buf n offset => exact hdoes.1.pos hback'

/-- **Inserted transfers do not show.** Every one of them amounts to a transfer at its offset;
and with all of them taken out, a run in which no seek back failed is still a run, with the same
results at the same positions. -/
theorem transfers_do_not_show {l : List Ran} (hrun : FileRun (file fd) fd l s s') :
    (∀ x ∈ l, x.Does) ∧
      ((∀ x ∈ l, x.strays = false) →
        FileRun (sharedFile fd) fd (l.filter Ran.plain) s s') := by
  induction hrun with
  | nil s => exact ⟨fun x hx => absurd hx List.not_mem_nil, fun _ => .nil s⟩
  | drift hdrift _ _ => exact hdrift.elim
  | @op x l s' hexec _ ih =>
      have hdoes := ran_does hexec
      refine ⟨fun y hy => ?_, fun hback => ?_⟩
      · rcases List.mem_cons.mp hy with rfl | hy
        · exact hdoes
        · exact ih.1 y hy
      · have hrest := ih.2 fun y hy => hback y (List.mem_cons_of_mem _ hy)
        cases hplain : x.plain with
        | true =>
            rw [List.filter_cons_of_pos hplain]
            exact .op (exec_shared hexec) hrest
        | false =>
            rw [List.filter_cons_of_neg (by rw [hplain]; exact Bool.false_ne_true)]
            exact .drift (Ran.pos hdoes hplain (hback x List.mem_cons_self)) hrest

/-! ## A run -/

def sampleFd : CInt := 3#32

/-- A file that holds `ABC`, read up to the `A`. -/
def sampleFile : FileState := ⟨1, [65, 66, 67], .other 0, fun _ => 0⟩

/-- `pread` of the `A`, and then `read` of the `B`. -/
def sampleRuns : List Ran :=
  [⟨.pread 100 1 0,
    [⟨.lseek sampleFd 0 .SEEK_CUR, (1 : Int)⟩, ⟨.lseek sampleFd 0 .SEEK_SET, (0 : Int)⟩,
      ⟨.read sampleFd 100 1, (1 : Int)⟩, ⟨.getErrno, Errno.other 0⟩,
      ⟨.lseek sampleFd 1 .SEEK_SET, (1 : Int)⟩, ⟨.setErrno (.other 0), ()⟩],
    1, sampleFile, { sampleFile with mem := put sampleFile.mem 100 [65] }⟩,
   ⟨.read 200 1, [⟨.read sampleFd 200 1, (1 : Int)⟩], 1,
    { sampleFile with mem := put sampleFile.mem 100 [65] },
    { sampleFile with pos := 2, mem := put (put sampleFile.mem 100 [65]) 200 [66] }⟩]

theorem sampleRuns_run : FileRun (file sampleFd) sampleFd sampleRuns sampleFile
    { sampleFile with pos := 2, mem := put (put sampleFile.mem 100 [65]) 200 [66] } := by
  refine .op (.call ⟨rfl, Or.inl ⟨.other 0, 1, rfl, rfl, rfl⟩⟩
    (.call ⟨rfl, Or.inl ⟨.other 0, 0, rfl, rfl, rfl⟩⟩
    (.call ⟨rfl, Or.inl ⟨1, .other 0, by decide, by decide, rfl, rfl⟩⟩ (.call ⟨rfl, rfl⟩
    (.call ⟨rfl, Or.inl ⟨.other 0, 1, rfl, rfl, rfl⟩⟩ (.call rfl (.ret _ _))))))) ?_
  exact .op (.call ⟨rfl, Or.inl ⟨1, .other 0, by decide, by decide, rfl, rfl⟩⟩ (.ret _ _)) (.nil _)

theorem transfers_do_not_show_sample : (∀ x ∈ sampleRuns, x.Does) ∧
    ((∀ x ∈ sampleRuns, x.strays = false) →
      FileRun (sharedFile sampleFd) sampleFd (sampleRuns.filter Ran.plain) sampleFile
        { sampleFile with pos := 2, mem := put (put sampleFile.mem 100 [65]) 200 [66] }) :=
  transfers_do_not_show sampleRuns_run

end Transfers

end LibrePortable.Win
