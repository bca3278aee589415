import ThreeVa.Lib.Json
import ThreeVa.Lib.Maps

/-!
# The lockfile

`pm/src/lockfile.rs`.
-/

namespace ThreeVa.Locks
open Text

structure LockfilePackage where
  version : Str
  resolved : Option Str
  integrity : Option Str
  dev : Option Bool
  registry : Option Str

structure LockfileDep where
  version : Str
  resolved : Option Str
  integrity : Option Str
  dependencies : Option (Finmap fun _ : Str => Str)
  dev : Option Bool
  registry : Option Str
  optional : Option Bool
  os : Option Json
  cpu : Option Json
  libc : Option Json

structure Lockfile where
  lockfileVersion : Nat
  name : Str
  version : Str
  packages : Finmap fun _ : Str => LockfilePackage
  dependencies : Finmap fun _ : Str => LockfileDep

/-- Where a package is pinned: its version, where it comes from and its integrity. -/
structure Pin where
  version : Str
  resolved : Option Str
  integrity : Option Str
deriving DecidableEq

def LockfilePackage.pin (p : LockfilePackage) : Pin := ⟨p.version, p.resolved, p.integrity⟩

def LockfileDep.pin (d : LockfileDep) : Pin := ⟨d.version, d.resolved, d.integrity⟩

def nodeModulesDir : Str := "node_modules/".toList

/-- The key of a package that is installed at the top. -/
def topKey (name : Str) : Str := nodeModulesDir ++ name

theorem topKey_injective : Function.Injective topKey := List.append_right_injective nodeModulesDir

theorem topKey_ne_nil (name : Str) : topKey name ≠ [] :=
  List.append_ne_nil_of_left_ne_nil (by decide) name

/-- The two tables pin every package to the same thing. -/
def Lockfile.Consistent (lock : Lockfile) : Prop :=
  ∀ name, (lock.packages.lookup (topKey name)).map LockfilePackage.pin =
    (lock.dependencies.lookup name).map LockfileDep.pin

end ThreeVa.Locks
