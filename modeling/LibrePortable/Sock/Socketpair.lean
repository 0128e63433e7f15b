import Mathlib.Logic.Function.Basic
import LibrePortable.Lib.Prog
import LibrePortable.Sock.Sentinels
import LibrePortable.Win.Calls

/-!
# `socketpair` on Windows

There is no `AF_UNIX` pair to ask for, so two TCP sockets are connected to each other
through a listener on the loopback address. Anyone on the machine may connect to that
listener too. The emulation therefore compares the name of its connecting end with the
name of the peer it accepted.

The network is what the calls can see of it: what each socket is used for, the
connections made so far, and the queue of every listener. Other processes connect,
close and reset between any two calls.
-/

namespace LibrePortable.Sock

open Lib Prog Win

/-- A socket as C sees it; -1 is no socket. -/
abbrev Handle := Int

/-- `struct sockaddr_in`. -/
structure SockAddr where
  family : Nat
  addr : Nat
  port : Nat
  deriving DecidableEq, Repr

def afUnix : CInt := 1#32
def afInet : Nat := 2
def sockStream : CInt := 1#32
def pfUnspec : CInt := 0#32
def inaddrLoopback : Nat := 0x7f000001

/-- The calls of `socketpair`; `sentinels` is the call of `create_issue_1069_sentinels`. -/
inductive PairCall where
  | socket
  | wsaSocket
  | setsockopt (s : Handle)
  | bind (s : Handle) (addr : SockAddr)
  | getsockname (s : Handle)
  | listen (s : Handle) (backlog : Nat)
  | connect (s : Handle) (addr : SockAddr)
  | accept (s : Handle)
  | getpeername (s : Handle)
  | closesocket (s : Handle)
  | wsaGetLastError
  | wsaSetLastError (e : WsaError)
  | sentinels (socketVector : Handle × Handle)

/-- What each call returns; a name query that fails returns nothing. -/
def PairAnswer : PairCall → Type
  | .socket | .wsaSocket | .accept _ => Handle
  | .getsockname _ | .getpeername _ => Option SockAddr
  | .wsaGetLastError => WsaError
  | .wsaSetLastError _ | .sentinels _ => Unit
  | .setsockopt _ | .bind .. | .listen .. | .connect .. | .closesocket _ => Int

/-- A program over these calls. -/
abbrev PairProg : Type → Type := Prog PairCall PairAnswer

namespace Call

def socket : PairProg Handle := .call .socket .ret
def wsaSocket : PairProg Handle := .call .wsaSocket .ret
def setsockopt (s : Handle) : PairProg Int := .call (.setsockopt s) .ret
def bind (s : Handle) (addr : SockAddr) : PairProg Int := .call (.bind s addr) .ret
def getsockname (s : Handle) : PairProg (Option SockAddr) := .call (.getsockname s) .ret
def listen (s : Handle) (backlog : Nat) : PairProg Int := .call (.listen s backlog) .ret
def connect (s : Handle) (addr : SockAddr) : PairProg Int := .call (.connect s addr) .ret
def accept (s : Handle) : PairProg Handle := .call (.accept s) .ret
def getpeername (s : Handle) : PairProg (Option SockAddr) := .call (.getpeername s) .ret
def closesocket (s : Handle) : PairProg Int := .call (.closesocket s) .ret
def wsaGetLastError : PairProg WsaError := .call .wsaGetLastError .ret
def wsaSetLastError (e : WsaError) : PairProg Unit := .call (.wsaSetLastError e) .ret
def sentinels (sv : Handle × Handle) : PairProg Unit := .call (.sentinels sv) .ret

end Call

open Call

/-- What `socketpair` returns, and the vector it leaves behind. -/
structure PairResult where
  rc : Int
  sv0 : Handle
  sv1 : Handle
  deriving DecidableEq, Repr

/-- `err:`. -/
def fail (listener sv0 sv1 : Handle) : PairProg PairResult := do
  let e ← wsaGetLastError
  let _ ← closesocket listener
  let _ ← closesocket sv0
  let _ ← closesocket sv1
  wsaSetLastError e
  return ⟨-1, -1, -1⟩

/-- Pair the two halves only if they are each other's peer. -/
def pair (listener sv0 sv1 : Handle) (self peer : SockAddr) : PairProg PairResult := do
  if self.family ≠ peer.family ∨ self.addr ≠ peer.addr ∨ self.port ≠ peer.port then
    wsaSetLastError .WSAECONNREFUSED
    fail listener sv0 sv1
  else
    let _ ← closesocket listener
    sentinels (sv0, sv1)
    return ⟨0, sv0, sv1⟩

/-- Ask for the two names. -/
def verify (listener sv0 sv1 : Handle) : PairProg PairResult := do
  match ← getsockname sv0 with
  | none => fail listener sv0 sv1
  | some self =>
    match ← getpeername sv1 with
    | none => fail listener sv0 sv1
    | some peer => pair listener sv0 sv1 self peer

/-- From `listen` on: connect, accept, and look at what was accepted. -/
def rendezvous (listener : Handle) (addr : SockAddr) : PairProg PairResult := do
  if (← listen listener 1) ≠ 0 then fail listener (-1) (-1)
  else
    let sv0 ← wsaSocket
    if sv0 = -1 then fail listener sv0 (-1)
    else if (← connect sv0 addr) ≠ 0 then fail listener sv0 (-1)
    else
      let sv1 ← accept listener
      if sv1 = -1 then fail listener sv0 sv1
      else verify listener sv0 sv1

/-- `socketpair`, with the vector as the caller left it. -/
def socketpair (domain type protocol : CInt) (sv : Handle × Handle) : PairProg PairResult := do
  if domain ≠ afUnix ∨ type &&& sockStream = 0#32 ∨ protocol ≠ pfUnspec then
    return ⟨-1, sv.1, sv.2⟩
  else
    let listener ← socket
    if listener = -1 then return ⟨-1, -1, -1⟩
    else if (← setsockopt listener) = -1 then fail listener (-1) (-1)
    else if (← bind listener ⟨afInet, inaddrLoopback, 0⟩) ≠ 0 then fail listener (-1) (-1)
    else
      match ← getsockname listener with
      | none => fail listener (-1) (-1)
      | some addr => rendezvous listener { addr with addr := inaddrLoopback, family := afInet }

/-! ## The network -/

/-- A connection, from its client's name to a listener's. -/
structure Conn where
  client : SockAddr
  server : SockAddr
  /-- Made by this process. -/
  own : Bool
  /-- The client has closed its end. -/
  finished : Bool
  /-- Neither reset nor gone. -/
  alive : Bool

/-- What a socket is used for. -/
inductive Role where
  | plain
  | bound (name : SockAddr)
  | listening (name : SockAddr)
  | client (c : Nat)
  | server (c : Nat)

/-- What this process can see of the network. -/
structure Net where
  role : Handle → Option Role
  conn : Nat → Conn
  /-- Connections made so far; the next one gets this number. -/
  made : Nat
  /-- The connections a listener can accept. -/
  queue : Handle → List Nat
  /-- The connection accepted last. -/
  taken : Option Nat
  lastError : WsaError
  crt : Table

namespace Net

def failed (s : Net) (e : WsaError) : Net := { s with lastError := e }

def setRole (s : Net) (h : Handle) (r : Option Role) : Net :=
  { s with role := Function.update s.role h r }

def setQueue (s : Net) (l : Handle) (q : List Nat) : Net :=
  { s with queue := Function.update s.queue l q }

/-- A connection from `name` arrives at listener `l`, which has the name `addr`. -/
def connected (s : Net) (l : Handle) (addr name : SockAddr) (own : Bool) : Net :=
  { s with
    conn := Function.update s.conn s.made ⟨name, addr, own, false, true⟩
    made := s.made + 1
    queue := Function.update s.queue l (s.queue l ++ [s.made]) }

/-- Connection `c` is gone: no longer alive, and no longer waiting anywhere. -/
def reset (s : Net) (c : Nat) : Net :=
  { s with
    conn := Function.update s.conn c { s.conn c with alive := false }
    queue := fun l => (s.queue l).filter (· ≠ c) }

/-- The client of connection `c` closes its end; the connection can still be accepted. -/
def finish (s : Net) (c : Nat) : Net :=
  { s with conn := Function.update s.conn c { s.conn c with finished := true } }

/-- No connection alive at a listener has this name. -/
def NameFree (s : Net) (addr name : SockAddr) : Prop :=
  ∀ c < s.made, (s.conn c).alive = true → (s.conn c).server = addr → (s.conn c).client ≠ name

/-- What `getsockname` finds. -/
def localName (s : Net) (h : Handle) : Option SockAddr :=
  match s.role h with
  | some (.bound a) | some (.listening a) => some a
  | some (.client c) => some (s.conn c).client
  | some (.server c) => some (s.conn c).server
  | _ => none

/-- What `getpeername` finds. -/
def peerName (s : Net) (h : Handle) : Option SockAddr :=
  match s.role h with
  | some (.client c) => some (s.conn c).server
  | some (.server c) => some (s.conn c).client
  | _ => none

/-- A call that returns -1 and sets the last error. -/
def Fails (s : Net) (rc : Int) (s' : Net) : Prop := rc = -1 ∧ ∃ e, s' = s.failed e

/-- A call that makes a socket. -/
def Makes (s : Net) (r : Role) (h : Handle) (s' : Net) : Prop :=
  h ≠ -1 ∧ s.role h = none ∧ s' = s.setRole h (some r)

/-- How the system answers. Any call can fail. `bind` picks a port if it is given none,
a connection gets a name that no connection alive at the same listener has, and
`accept` takes any connection from the queue. -/
def Answers (s : Net) : (e : PairCall) → PairAnswer e → Net → Prop
  | .socket, h, s' | .wsaSocket, h, s' => s.Makes .plain h s' ∨ s.Fails h s'
  | .setsockopt _, rc, s' => (rc = (0 : Int) ∧ s' = s) ∨ s.Fails rc s'
  | .bind h addr, rc, s' =>
      (rc = (0 : Int) ∧ s.role h = some .plain ∧ ∃ port, (addr.port ≠ 0 → port = addr.port)
        ∧ s' = s.setRole h (some (.bound { addr with port := port }))) ∨ s.Fails rc s'
  | .getsockname h, a, s' =>
      (a ≠ (none : Option SockAddr) ∧ a = s.localName h ∧ s' = s)
        ∨ (a = (none : Option SockAddr) ∧ ∃ e, s' = s.failed e)
  | .listen h _, rc, s' =>
      (rc = (0 : Int) ∧ ∃ a, s.role h = some (.bound a)
        ∧ s' = (s.setRole h (some (.listening a))).setQueue h []) ∨ s.Fails rc s'
  | .connect h addr, rc, s' =>
      (rc = (0 : Int) ∧ s.role h = some .plain ∧ ∃ l name, s.role l = some (.listening addr)
        ∧ s.NameFree addr name
        ∧ s' = (s.connected l addr name true).setRole h (some (.client s.made))) ∨ s.Fails rc s'
  | .accept l, h, s' =>
      (∃ c ∈ s.queue l, h ≠ (-1 : Int) ∧ s.role h = none
        ∧ s' = { (s.setRole h (some (.server c))).setQueue l ((s.queue l).erase c) with
          taken := some c }) ∨ s.Fails h s'
  | .getpeername h, a, s' =>
      (a ≠ (none : Option SockAddr) ∧ a = s.peerName h ∧ s' = s)
        ∨ (a = (none : Option SockAddr) ∧ ∃ e, s' = s.failed e)
  | .closesocket h, rc, s' =>
      (rc = (0 : Int) ∧ s.role h ≠ none ∧ s' = (s.setRole h none).setQueue h []) ∨ s.Fails rc s'
  | .wsaGetLastError, e, s' => e = s.lastError ∧ s' = s
  | .wsaSetLastError e, _, s' => s' = s.failed e
  | .sentinels sv, _, s' => ∃ T, createIssue1069Sentinels sv (s.crt.limit + 1) s.crt = some T
      ∧ s' = { s with crt := T }

/-- What other processes do: connect to a listener, close their end, or reset. A
connection lasts as long as this process holds its connecting end. -/
inductive Moves : Net → Net → Prop where
  | connect {s : Net} {l : Handle} {addr name : SockAddr} : s.role l = some (.listening addr) →
      s.NameFree addr name → Moves s (s.connected l addr name false)
  | close {s : Net} {c : Nat} : (s.conn c).own = false → Moves s (s.finish c)
  | reset {s : Net} {c : Nat} : (∀ h c', s.role h = some (.client c') → c' ≠ c) →
      Moves s (s.reset c)

/-- The network with everyone on it. -/
def world : Surroundings PairCall PairAnswer Net where
  Answer := Answers
  Drift := Moves

/-- Two connections alive at one listener never share a name, and what waits in a queue
is alive and was made to that listener. -/
structure Ok (s : Net) : Prop where
  names : ∀ c < s.made, ∀ d < s.made, (s.conn c).alive = true → (s.conn d).alive = true →
    (s.conn c).server = (s.conn d).server → (s.conn c).client = (s.conn d).client → c = d
  queued : ∀ l, ∀ c ∈ s.queue l, c < s.made ∧ (s.conn c).alive = true
    ∧ s.role l = some (.listening (s.conn c).server)

end Net

end LibrePortable.Sock
