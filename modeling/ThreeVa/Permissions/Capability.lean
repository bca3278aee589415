import ThreeVa.Lib.Text
import Mathlib.Data.Char
import Mathlib.Data.List.Sort
import Mathlib.Data.List.Dedup
import Mathlib.Data.List.Lex
import ThreeVa.Permissions.Host
import ThreeVa.Permissions.Path
import Mathlib.Data.Finmap

/-!
# Capabilities and the permission state

`Capability`, `PermissionState`, `caps_match`, `check_inner` and `bind_host` of `permissions/src/capability.rs`.
-/

/-!
## Which package is running

`permissions/src/scope.rs`: the scope the `require()` wrapper set, the packages with code on the stack, and the
scopes inherited by deferred work.
-/

namespace ThreeVa.Permissions
open Text

def rootScope : Str := ['.']

/-- The scope variables of a thread, and the process-wide flag. -/
structure ScopeState where
  /-- The scope set from JS, empty for the root scope. -/
  current : Str
  /-- The packages the engine finds on the stack, when it has installed a reader. -/
  stackResolver : Option (List Str)
  inherited : List Str
  rulesActive : Bool

namespace ScopeState

variable (sc : ScopeState)

def markScopedRulesActive : ScopeState := { sc with rulesActive := true }

def currentScope : Str := if sc.current = [] then rootScope else sc.current

/-- Package scopes whose code is on the JS stack right now. -/
def stackScopes : List Str := if sc.rulesActive then sc.stackResolver.getD [] else []

/-- Packages involved in the current operation, before the inherited ones. -/
def runningScopes : List Str :=
  match sc.stackResolver with
  | some _ => sc.stackScopes
  | none => if sc.currentScope = rootScope then [] else [sc.currentScope]

/-- Packages involved in the current operation: every package with code on the stack plus those inherited from
where deferred work was scheduled. -/
def packageScopes : List Str :=
  -- sorted first, so removing repeated neighbours removes every repetition
  ((sc.runningScopes ++ sc.inherited).insertionSort (· ≤ ·)).dedup

/-- Scopes whose `deny-*` rules apply: the package scopes plus the scope the `require()` wrapper set. -/
def denyScopes : List Str :=
  if sc.currentScope ≠ rootScope ∧ sc.currentScope ∉ sc.packageScopes then
    sc.packageScopes ++ [sc.currentScope]
  else sc.packageScopes

end ScopeState

inductive Capability
  | fileRead (path : PathBuf)
  | fileWrite (path : PathBuf)
  | network (host : Str)
  | spawnProcess
  | envAccess
  | envVar (name : Str)
  | ffi (path : PathBuf)
deriving DecidableEq

def capsMatch (env : PathEnv) : Capability → Capability → Bool
  | .fileRead allowed, .fileRead target => pathCoveredBy env target allowed
  | .fileWrite allowed, .fileWrite target => pathCoveredBy env target allowed
  | .network allowed, .network target => hostMatches allowed target
  | .envAccess, .envAccess => true
  | .envAccess, .envVar _ => true
  | .envVar a, .envVar b => a = b
  | .ffi allowed, .ffi target => pathCoveredBy env target allowed
  | a, b => a = b

abbrev ScopedRules := Finmap fun _ : Str => Finset Capability

/-- `entry(scope).or_default().insert(cap)`. -/
def ScopedRules.add (m : ScopedRules) (scope : Str) (cap : Capability) : ScopedRules :=
  m.insert scope (insert cap ((m.lookup scope).getD ∅))

/-- One entry of the audit log, without its time. -/
structure AuditEvent where
  cap : Capability
  allowed : Bool
deriving DecidableEq

structure PermissionState where
  granted : Finset Capability
  denied : Finset Capability
  scopedGranted : ScopedRules
  scopedDenied : ScopedRules
  interactive : Bool
  denyAllFs : Bool
  denyAllNet : Bool
  denyAllEnv : Bool
  denyAllProcess : Bool
  auditLog : Option (List AuditEvent)
  auditDeniedOnly : Bool
  deniedBinds : List Str

namespace PermissionState

def new : PermissionState where
  granted := ∅
  denied := ∅
  scopedGranted := ∅
  scopedDenied := ∅
  interactive := false
  denyAllFs := false
  denyAllNet := false
  denyAllEnv := false
  denyAllProcess := false
  auditLog := none
  auditDeniedOnly := false
  deniedBinds := []

variable (st : PermissionState)

def grant (cap : Capability) : PermissionState := { st with granted := insert cap st.granted }

def deny (cap : Capability) : PermissionState := { st with denied := insert cap st.denied }

def recordAudit (cap : Capability) (allowed : Bool) : PermissionState :=
  if st.auditDeniedOnly && allowed then st
  else { st with auditLog := st.auditLog.map (· ++ [⟨cap, allowed⟩]) }

def recordBindDenial (host : Str) : PermissionState :=
  if host ∈ st.deniedBinds then st else { st with deniedBinds := st.deniedBinds ++ [host] }

/-- The category flag of step 1. -/
def denyAllCovers : Capability → Bool
  | .fileRead _ | .fileWrite _ => st.denyAllFs
  | .network _ => st.denyAllNet
  | .envAccess | .envVar _ => st.denyAllEnv
  | .spawnProcess => st.denyAllProcess
  | .ffi _ => false

end PermissionState

def matchesAny (env : PathEnv) (set : Finset Capability) (required : Capability) : Bool :=
  decide (∃ c ∈ set, capsMatch env c required = true)

def scopeMatches (env : PathEnv) (rules : ScopedRules) (required : Capability) (scope : Str) : Bool :=
  (rules.lookup scope).any fun set => matchesAny env set required

/-- Steps 1 to 3 of `check_inner`: an answer, or nothing when no rule decides. -/
def checkRules (env : PathEnv) (sc : ScopeState) (st : PermissionState) (required : Capability) : Option Bool :=
  if st.denyAllCovers required then some false
  else if matchesAny env st.denied required then some false
  else if st.scopedDenied ≠ ∅ ∧ sc.denyScopes.any (scopeMatches env st.scopedDenied required) then some false
  else if matchesAny env st.granted required then some true
  else if sc.packageScopes ≠ [] ∧ sc.packageScopes.all (scopeMatches env st.scopedGranted required) then some true
  else none

inductive Stdin
  | notTerminal
  | failed
  | line (text : Str)

/-- `prompt_user`: `y` allows once, `A` grants, anything else denies. -/
def promptUser (stdin : Stdin) (st : PermissionState) (required : Capability) : Bool × PermissionState :=
  match stdin with
  | .line text =>
      if eqIgnoreAsciiCase (trim text) ['y'] then (true, st)
      else if trim text = ['A'] then (true, st.grant required)
      else (false, st.deny required)
  | _ => (false, st.deny required)

def checkInner (env : PathEnv) (stdin : Stdin) (sc : ScopeState) (st : PermissionState) (required : Capability) :
    Bool × PermissionState :=
  match checkRules env sc st required with
  | some answer => (answer, st)
  | none => if st.interactive then promptUser stdin st required else (false, st)

/-! ## Binding a local address -/

def loopbackV4 : Str := "127.0.0.1".toList
def loopbackV6 : Str := "::1".toList
def localhost : Str := "localhost".toList
def unspecifiedV4 : Str := "0.0.0.0".toList
def unspecifiedV6 : Str := "::".toList

def isLocalBindHost (host : Str) : Bool :=
  host ∈ [unspecifiedV4, unspecifiedV6, loopbackV4, loopbackV6, localhost]

def isNetGrant : Capability → Bool
  | .network _ => true
  | _ => false

def isAllInterfacesGrant : Capability → Bool
  | .network h => h ∈ [['*'], unspecifiedV4, unspecifiedV6]
  | _ => false

def anyNet (st : PermissionState) : Bool := decide (∃ g ∈ st.granted, isNetGrant g = true)

def allInterfaces (st : PermissionState) : Bool := decide (∃ g ∈ st.granted, isAllInterfacesGrant g = true)

/-- The address a server asking to bind `host` may actually bind, or none if it may not listen at all. -/
def bindHost (env : PathEnv) (stdin : Stdin) (sc : ScopeState) (st : PermissionState) (host : Str) :
    Option Str × PermissionState :=
  let required := Capability.network host
  if st.denyAllNet then (none, (st.recordBindDenial host).recordAudit required false)
  else if matchesAny env st.denied required then (none, (st.recordBindDenial host).recordAudit required false)
  else if anyNet st && host ∈ [loopbackV4, loopbackV6, localhost] then (some host, st.recordAudit required true)
  else if isLocalBindHost host && allInterfaces st then (some host, st.recordAudit required true)
  else if isLocalBindHost host && anyNet st then
    (some (if host = unspecifiedV6 then loopbackV6 else loopbackV4), st.recordAudit required true)
  else
    let (allowed, st') := checkInner env stdin sc st required
    let st'' := if allowed then st' else st'.recordBindDenial host
    (if allowed then some host else none, st''.recordAudit required allowed)

/-! ## The process the rules live in -/

/-- A permission state with the scope variables it is checked under. A package-scoped rule is only ever added
after the process-wide flag is set, and the flag is never cleared. -/
structure Process where
  perms : PermissionState
  scope : ScopeState
  active_of_scoped : perms.scopedGranted ≠ ∅ ∨ perms.scopedDenied ≠ ∅ → scope.rulesActive = true

namespace Process

variable (p : Process)

def grant (cap : Capability) : Process := ⟨p.perms.grant cap, p.scope, p.active_of_scoped⟩

def deny (cap : Capability) : Process := ⟨p.perms.deny cap, p.scope, p.active_of_scoped⟩

def grantScoped (scope : Str) (cap : Capability) : Process :=
  if scope = rootScope then p.grant cap
  else
    ⟨{ p.perms with scopedGranted := p.perms.scopedGranted.add scope cap }, p.scope.markScopedRulesActive,
      fun _ => rfl⟩

def denyScoped (scope : Str) (cap : Capability) : Process :=
  if scope = rootScope then p.deny cap
  else
    ⟨{ p.perms with scopedDenied := p.perms.scopedDenied.add scope cap }, p.scope.markScopedRulesActive,
      fun _ => rfl⟩

def checks (env : PathEnv) (stdin : Stdin) (required : Capability) : Bool :=
  (checkInner env stdin p.scope p.perms required).1

end Process

inductive RuleCall
  | grant (cap : Capability)
  | deny (cap : Capability)
  | grantScoped (scope : Str) (cap : Capability)
  | denyScoped (scope : Str) (cap : Capability)

def RuleCall.isGrant : RuleCall → Bool
  | .grant _ | .grantScoped _ _ => true
  | .deny _ | .denyScoped _ _ => false

def Process.apply (p : Process) : RuleCall → Process
  | .grant cap => p.grant cap
  | .deny cap => p.deny cap
  | .grantScoped scope cap => p.grantScoped scope cap
  | .denyScoped scope cap => p.denyScoped scope cap

def Process.applyAll (p : Process) (calls : List RuleCall) : Process := calls.foldl Process.apply p

/-! ## What the rules say -/

/-- The rule set allows the capability: no deny covers it, and a global grant does or every package involved
holds a grant of its own. -/
def Allowed (env : PathEnv) (sc : ScopeState) (st : PermissionState) (required : Capability) : Prop :=
  st.denyAllCovers required = false ∧
    (∀ d ∈ st.denied, capsMatch env d required = false) ∧
    (∀ s ∈ sc.denyScopes, ∀ set, st.scopedDenied.lookup s = some set → ∀ d ∈ set, capsMatch env d required = false) ∧
    ((∃ g ∈ st.granted, capsMatch env g required = true) ∨
      sc.packageScopes ≠ [] ∧ ∀ s ∈ sc.packageScopes,
        ∃ set, st.scopedGranted.lookup s = some set ∧ ∃ g ∈ set, capsMatch env g required = true)

def ScopeDeniesHost (env : PathEnv) (sc : ScopeState) (st : PermissionState) (host : Str) : Prop :=
  ∃ s ∈ sc.denyScopes, ∃ set, st.scopedDenied.lookup s = some set ∧
    ∃ d ∈ set, capsMatch env d (.network host) = true

/-- A deny rule in force names the address: the network is off, or a global rule or one of an active package
matches. -/
def BindDenied (env : PathEnv) (sc : ScopeState) (st : PermissionState) (host : Str) : Prop :=
  st.denyAllNet = true ∨ (∃ d ∈ st.denied, capsMatch env d (.network host) = true) ∨ ScopeDeniesHost env sc st host

/-- The requests whose shortcuts pass a deny rule: a network grant exists, no global rule names the requested
host, and either a package rule names the loopback or wildcard address that is bound as asked, or some rule
names the loopback address a wildcard is moved to. -/
def ShortcutPassesDeny (env : PathEnv) (sc : ScopeState) (st : PermissionState) (host : Str) : Prop :=
  st.denyAllNet = false ∧ (∀ d ∈ st.denied, capsMatch env d (.network host) = false) ∧ anyNet st = true ∧
    ((host ∈ [loopbackV4, loopbackV6, localhost] ∨ host ∈ [unspecifiedV4, unspecifiedV6] ∧ allInterfaces st = true) ∧
        ScopeDeniesHost env sc st host ∨
      allInterfaces st = false ∧
        (host = unspecifiedV4 ∧ BindDenied env sc st loopbackV4 ∨
          host = unspecifiedV6 ∧ BindDenied env sc st loopbackV6))

end ThreeVa.Permissions
