import ThreeVa.Permissions.Capability
import ThreeVa.Lib.Runs
import ThreeVa.Permissions.Lemmas.Bind
import ThreeVa.Permissions.Host

/-!
# UDP sockets

`__udpCreate`, `__udpBind` and `__udpClose` of `js/src/builtins/dgram.rs`: the sockets of a process, and every local
address one was bound to.
-/

namespace ThreeVa.Js
open Text Permissions

abbrev SocketId := UInt32

inductive SocketType
  | udp4
  | udp6
deriving DecidableEq

/-- The socket is `udp6` only if the script writes just that. -/
def SocketType.ofText (text : Str) : SocketType := if text = "udp6".toList then .udp6 else .udp4

def SocketType.unspecified : SocketType → Str
  | udp4 => unspecifiedV4
  | udp6 => unspecifiedV6

structure LocalAddr where
  host : Str
  port : Nat
deriving DecidableEq

/-- The address a socket text names: what stands before the last colon, an IPv6 address in brackets. -/
def namedAddr (text : Str) : Option LocalAddr := do
  let (host, port) ← rsplitOnce ':' text
  let port ← parseUnsigned 10 u16Max port
  match (stripPrefix ['['] host).bind (rsplitOnce ']') with
  | some (inner, []) => if ':' ∈ inner then return ⟨inner, port⟩ else return ⟨host, port⟩
  | _ => return ⟨host, port⟩

/-- `UdpSocket::bind`: the system refuses with a message, or the socket has the address. -/
def udpSocketBind (text : Str) (refused : Option Str) : Except Str LocalAddr :=
  match namedAddr text, refused with
  | some addr, none => .ok addr
  | some _, some message => .error message
  | none, _ => .error "invalid socket address".toList

/-- A socket that was bound: the host and port the script asked for, what `bind_host` answered, and where it is. -/
structure Binding where
  request : Str
  port : Nat
  vetted : Option Str
  addr : LocalAddr

/-- What was bound is what was vetted. -/
def Binding.AsVetted (b : Binding) : Prop := b.vetted = some b.addr.host ∧ b.addr.port = b.port

structure Dgram where
  perms : PermissionState
  registry : SocketId → Option Binding
  nextId : SocketId
  /-- Every socket ever bound, the last one first. -/
  bound : List Binding

namespace Dgram

def new (perms : PermissionState) : Dgram := ⟨perms, fun _ => none, 1, []⟩

/-- What a call sees of the thread it is made on. -/
structure Call where
  env : PathEnv
  stdin : Stdin
  scope : ScopeState

variable (s : Dgram)

def record (id : SocketId) (b : Binding) : Dgram :=
  { s with registry := Function.update s.registry id (some b), bound := b :: s.bound }

def udpClose (id : SocketId) : Dgram := { s with registry := Function.update s.registry id none }

/-- The text `__udpCreate` binds. -/
def createText : SocketType → Str
  | .udp4 => "0.0.0.0:0".toList
  | .udp6 => "[::]:0".toList

/-- Returns the id of the socket, or 0. -/
def udpCreate (c : Call) (socketType : Str) (refused : Option Str) : Dgram × SocketId :=
  let kind := SocketType.ofText socketType
  let (vetted, perms) := bindHost c.env c.stdin c.scope s.perms kind.unspecified
  let s := { s with perms := perms }
  -- `check_bind`
  if vetted.isSome then
    let id := s.nextId
    let s := { s with nextId := s.nextId + 1 }
    match udpSocketBind (createText kind) refused with
    | .ok addr => (s.record id ⟨kind.unspecified, 0, vetted, addr⟩, id)
    | .error _ => (s, 0)
  else (s, 0)

def portFromJs (value : Option UInt32) (default : Nat) : Nat :=
  match value with
  | some p => if p.toNat ≤ u16Max then p.toNat else 0
  | none => default

def bindText (address : Str) (port : Nat) : Str :=
  if ':' ∈ address then ['['] ++ address ++ [']', ':'] ++ decimal port else address ++ [':'] ++ decimal port

/-- Returns null, or the text of the error. The registry is unlocked while the socket is bound, and another thread may
close it then. -/
def udpBind (c : Call) (id : SocketId) (port : Option UInt32) (address : Str) (refused : Option Str) (closed : Bool) :
    Dgram × Option Str :=
  let port := portFromJs port 0
  let (vetted, perms) := bindHost c.env c.stdin c.scope s.perms address
  let s := { s with perms := perms }
  match vetted with
  | none => (s, some ("EACCES: permission denied (--allow-net=".toList ++ address ++ [')']))
  | some host =>
      match s.registry id with
      | none => (s, some ("ENOENT: unknown socket id ".toList ++ decimal id.toNat))
      | some _ =>
          match udpSocketBind (bindText host port) refused with
          | .error message => (s, some message)
          | .ok addr =>
              let s := s.record id ⟨address, port, vetted, addr⟩
              (if closed then s.udpClose id else s, none)

/-- A call of the script, or a change of the rules by other code. -/
inductive Op
  | create (c : Call) (socketType : Str) (refused : Option Str)
  | bind (c : Call) (id : SocketId) (port : Option UInt32) (address : Str) (refused : Option Str) (closed : Bool)
  | close (id : SocketId)
  | rules (perms : PermissionState)

def apply : Op → Dgram
  | .create c socketType refused => (s.udpCreate c socketType refused).1
  | .bind c id port address refused closed => (s.udpBind c id port address refused closed).1
  | .close id => s.udpClose id
  | .rules perms => { s with perms := perms }

def step (op : Op) : Option Dgram := some (s.apply op)

def AsVetted : Prop := ∀ b ∈ s.bound, b.AsVetted

/-- A request to bind the wildcard address that is granted the loopback address only. -/
def MovedToLoopback (env : PathEnv) (st : PermissionState) (kind : SocketType) : Prop :=
  st.denyAllNet = false ∧ matchesAny env st.denied (.network kind.unspecified) = false ∧ anyNet st = true ∧
    allInterfaces st = false

/-- A socket is created, though only the loopback address is granted. -/
def Widened : Op → Prop
  | .create c socketType none => MovedToLoopback c.env s.perms (.ofText socketType)
  | _ => False

end Dgram

/-!
## Where a UDP socket is bound
-/

/-! ## The text of an address -/

theorem namedAddr_plain {host : Str} {port : Nat} (hc : ':' ∉ host) (hp : port ≤ u16Max) :
    namedAddr (host ++ ':' :: decimal port) = some ⟨host, port⟩ := by
  have hinner : ∀ inner rest, (stripPrefix ['['] host).bind (rsplitOnce ']') = some (inner, rest) → ':' ∉ inner := by
    intro inner rest h hm
    obtain ⟨tail, htail, hsplit⟩ := Option.bind_eq_some_iff.mp h
    obtain ⟨rfl, -⟩ := rsplitOnce_eq_some.mp hsplit
    rw [stripPrefix_eq_some] at htail
    exact hc (htail ▸ by simp [hm])
  simp only [namedAddr, rsplitOnce_append (colon_not_mem_decimal port), parseUnsigned_decimal hp, Option.bind_eq_bind,
    Option.bind_some]
  split
  · rename_i inner h
    rw [if_neg (hinner inner [] h)]
    rfl
  · rfl

theorem namedAddr_bracketed {host : Str} {port : Nat} (hc : ':' ∈ host) (hp : port ≤ u16Max) :
    namedAddr ('[' :: host ++ [']'] ++ ':' :: decimal port) = some ⟨host, port⟩ := by
  have hsplit : (stripPrefix ['['] ('[' :: host ++ [']'])).bind (rsplitOnce ']') = some (host, []) := by
    have hstrip : stripPrefix ['['] ('[' :: host ++ [']']) = some (host ++ [']']) := stripPrefix_eq_some.mpr rfl
    rw [hstrip, Option.bind_some]
    exact rsplitOnce_append (by simp)
  simp only [namedAddr, rsplitOnce_append (colon_not_mem_decimal port), parseUnsigned_decimal hp, Option.bind_eq_bind,
    Option.bind_some, hsplit, if_pos hc]
  rfl

theorem portFromJs_le (value : Option UInt32) {default : Nat} (h : default ≤ u16Max) :
    Dgram.portFromJs value default ≤ u16Max := by
  cases value with
  | none => exact h
  | some p =>
      simp only [Dgram.portFromJs]
      split <;> omega

theorem namedAddr_bindText (host : Str) {port : Nat} (hp : port ≤ u16Max) :
    namedAddr (Dgram.bindText host port) = some ⟨host, port⟩ := by
  by_cases hc : ':' ∈ host
  · simpa [Dgram.bindText, hc] using namedAddr_bracketed hc hp
  · simpa [Dgram.bindText, hc] using namedAddr_plain hc hp

theorem namedAddr_createText (kind : SocketType) : namedAddr (Dgram.createText kind) = some ⟨kind.unspecified, 0⟩ := by
  cases kind <;> decide

/-! ## The steps -/

namespace Dgram

variable {s : Dgram}

/-- The answer to the wildcard address is none, or the address itself unless it is moved to the loopback one. -/
theorem bindHost_unspecified {env : PathEnv} {st : PermissionState} (stdin : Stdin) (sc : ScopeState)
    (kind : SocketType) {host : Str} (h : (bindHost env stdin sc st kind.unspecified).1 = some host) :
    host = kind.unspecified ↔ ¬ MovedToLoopback env st kind := by
  have h1 : st.denyAllNet = false := by
    by_contra h1
    simp [bindHost, Bool.not_eq_false _ ▸ h1] at h
  have h2 : matchesAny env st.denied (.network kind.unspecified) = false := by
    by_contra h2
    simp [bindHost, h1, Bool.not_eq_false _ ▸ h2] at h
  have hu : kind.unspecified ∈ [unspecifiedV4, unspecifiedV6] := by cases kind <;> simp [SocketType.unspecified]
  simp only [MovedToLoopback, h1, h2, true_and, not_and, Bool.not_eq_false]
  rcases bindHost_cases stdin sc h1 h2 with ⟨-, hl | ⟨-, ha⟩, hb⟩ | ⟨hn, ha, hb⟩ | ⟨hno, hb⟩
  · exact absurd hl (not_loopback_of_unspecified hu)
  · rw [hb, Option.some.injEq] at h
    exact ⟨fun _ _ => ha, fun _ => h.symm⟩
  · have hne : host ≠ kind.unspecified := by
      rcases hb with ⟨hk, hb⟩ | ⟨hk, hb⟩ <;> rw [hb, Option.some.injEq] at h <;> rw [hk, ← h] <;> decide
    exact ⟨fun heq => absurd heq hne, fun hall => by rw [hall hn] at ha; cases ha⟩
  · have hn : anyNet st = false := hno.resolve_right fun hno => hno.2 hu
    rw [hb] at h
    split at h
    · exact ⟨fun _ hn' => by simp [hn] at hn', fun _ => (Option.some.inj h).symm⟩
    · cases h

/-- A creation binds nothing, or the wildcard address under the answer to it. -/
theorem udpCreate_bound (s : Dgram) (c : Call) (socketType : Str) (refused : Option Str) :
    ((s.udpCreate c socketType refused).1.bound = s.bound ∧
      (refused = none → (bindHost c.env c.stdin c.scope s.perms (SocketType.ofText socketType).unspecified).1 = none)) ∨
    ∃ host, (bindHost c.env c.stdin c.scope s.perms (SocketType.ofText socketType).unspecified).1 = some host ∧
      refused = none ∧
      (s.udpCreate c socketType refused).1.bound =
        ⟨(SocketType.ofText socketType).unspecified, 0, some host, ⟨(SocketType.ofText socketType).unspecified, 0⟩⟩ ::
          s.bound := by
  cases hv : (bindHost c.env c.stdin c.scope s.perms (SocketType.ofText socketType).unspecified).1 with
  | none => exact .inl ⟨by simp [udpCreate, hv], fun _ => rfl⟩
  | some host =>
      cases refused with
      | none => exact .inr ⟨host, rfl, rfl, by simp [udpCreate, hv, udpSocketBind, namedAddr_createText, record]⟩
      | some message =>
          exact .inl ⟨by simp [udpCreate, hv, udpSocketBind, namedAddr_createText], fun h => by cases h⟩

/-- A bind binds nothing, or the address it was granted. -/
theorem udpBind_bound (s : Dgram) (c : Call) (id : SocketId) (port : Option UInt32) (address : Str)
    (refused : Option Str) (closed : Bool) :
    (s.udpBind c id port address refused closed).1.bound = s.bound ∨
      ∃ b : Binding, b.AsVetted ∧ (s.udpBind c id port address refused closed).1.bound = b :: s.bound := by
  cases hv : (bindHost c.env c.stdin c.scope s.perms address).1 with
  | none => exact .inl (by simp [udpBind, hv])
  | some host =>
      cases hreg : s.registry id with
      | none => exact .inl (by simp [udpBind, hv, hreg])
      | some b =>
          have hport := portFromJs_le port (Nat.zero_le u16Max)
          cases refused with
          | some message =>
              exact .inl (by simp [udpBind, hv, hreg, udpSocketBind, namedAddr_bindText host hport])
          | none =>
              refine .inr ⟨⟨address, portFromJs port 0, some host, ⟨host, portFromJs port 0⟩⟩, ⟨rfl, rfl⟩, ?_⟩
              cases closed <;>
                simp [udpBind, hv, hreg, udpSocketBind, namedAddr_bindText host hport, record, udpClose]

theorem asVetted_cons {b : Binding} {t : Dgram} (hb : b.AsVetted) (h : s.AsVetted) (ht : t.bound = b :: s.bound) :
    t.AsVetted := by
  intro b' hb'
  rw [ht, List.mem_cons] at hb'
  rcases hb' with rfl | hb'
  · exact hb
  · exact h b' hb'

theorem AsVetted.of_bound {t : Dgram} (h : s.AsVetted) (ht : t.bound = s.bound) : t.AsVetted := by
  intro b hb
  exact h b (ht ▸ hb)

theorem AsVetted.apply (h : s.AsVetted) (op : Op) (hop : ¬ s.Widened op) : (s.apply op).AsVetted := by
  cases op with
  | create c socketType refused =>
      rcases udpCreate_bound s c socketType refused with ⟨hb, -⟩ | ⟨host, hv, rfl, hb⟩
      · exact h.of_bound hb
      · have hhost := (bindHost_unspecified c.stdin c.scope _ hv).mpr hop
        exact asVetted_cons ⟨congrArg some hhost, rfl⟩ h hb
  | bind c id port address refused closed =>
      rcases udpBind_bound s c id port address refused closed with hb | ⟨b, hvet, hb⟩
      · exact h.of_bound hb
      · exact asVetted_cons hvet h hb
  | close id => exact h
  | rules perms => exact h

/-- The wildcard address is bound under the answer that moved it. -/
theorem not_asVetted_of_widened {op : Op} (hop : s.Widened op) : ¬ (s.apply op).AsVetted := by
  intro h
  match op, hop with
  | .create c socketType none, hmoved =>
      rcases udpCreate_bound s c socketType none with ⟨-, hnone⟩ | ⟨host, hv, -, hb⟩
      · obtain ⟨h1, h2, hn, ha⟩ := hmoved
        rcases bindHost_cases c.stdin c.scope h1 h2 with ⟨-, -, hb⟩ | ⟨-, -, ⟨-, hb⟩ | ⟨-, hb⟩⟩ | ⟨hno, -⟩
        · simp [hnone rfl] at hb
        · simp [hnone rfl] at hb
        · simp [hnone rfl] at hb
        · rcases hno with hno | ⟨-, hno⟩
          · simp [hn] at hno
          · exact hno (by cases SocketType.ofText socketType <;> simp [SocketType.unspecified])
      · have hvet := (h _ (by rw [Dgram.apply, hb]; exact List.mem_cons_self)).1
        exact (bindHost_unspecified c.stdin c.scope _ hv).mp (Option.some.inj hvet) hmoved

theorem exec_some (s : Dgram) (ops : List Op) : ∃ t, Runs.exec step s ops = some t := by
  induction ops generalizing s with
  | nil => exact ⟨s, rfl⟩
  | cons op ops ih =>
      obtain ⟨t, ht⟩ := ih (s.apply op)
      exact ⟨t, Runs.exec_cons.mpr ⟨_, rfl, ht⟩⟩

end Dgram

end ThreeVa.Js
