import ThreeVa.Lib.Maps
import ThreeVa.Lib.Runs
import ThreeVa.Store.Provenance

/-!
# The file of recorded signers

`check_signer_pin` of `pm/src/provenance.rs` on `.3va/provenance-signers.json`, and the installs of one project that call
it. The lock is held for one call, so that the calls of different installs come in any order.
-/

namespace ThreeVa.Provenance
open Text
open Store (SignerIdentity signerFits repositoryMessage)

abbrev Pins := Finmap fun _ : Str => Str

/-- How the write of the file ends: as it should, without touching the file, or with a text that is cut short. -/
inductive WriteFate
  | done
  | refused (why : Str)
  | cut (why : Str)
deriving DecidableEq

/-- What the file system does during one call. -/
structure Io where
  readable : Bool
  write : WriteFate
deriving DecidableEq

/-- A file is what it parses to; `none` is one that is missing or that is not a map of strings. -/
def Io.read (io : Io) (file : Option Pins) : Pins := if io.readable then file.getD ∅ else ∅

def Io.store (io : Io) (file : Option Pins) (pins : Pins) : Except Str Unit × Option Pins :=
  match io.write with
  | .done => (.ok (), some pins)
  | .refused why => (.error ("cannot record provenance signer: ".toList ++ why), file)
  | .cut why => (.error ("cannot record provenance signer: ".toList ++ why), none)

def checkSignerPin (io : Io) (pkgName : Str) (signer : Option Str) (file : Option Pins) :
    Except Str Unit × Option Pins :=
  match (io.read file).lookup pkgName, signer with
  | some recorded, _ => ((Store.checkSignerPin (some recorded) signer).1, file)
  | none, some s => io.store file ((io.read file).insert pkgName s)
  | none, none => (.ok (), file)

/-! ## Installs -/

/-- A call of `check_signers`, or of `check_signer_pin` without a signer, which is the list `[none]`. The last field says
that the install has recorded a signer of its own. -/
structure Flight where
  pkgName : Str
  declared : Option Str
  require : Bool
  signers : List (Option SignerIdentity)
  todo : List (Option SignerIdentity)
  result : Option (Except Str Unit)
  recorded : Bool

namespace Flight

variable (f : Flight)

def fits (signer : Option SignerIdentity) : Bool := signer.all (signerFits f.declared f.require)

def pinOf (signer : Option SignerIdentity) : Option Str := signer.map SignerIdentity.pin

/-- The install up to the end of its next call. -/
def next (io : Io) (file : Option Pins) : Flight × Option Pins :=
  match f.todo with
  | [] => ({ f with result := some (.ok ()) }, file)
  | signer :: rest =>
      if f.fits signer then
        match checkSignerPin io f.pkgName (pinOf signer) file with
        | (.ok (), file') =>
            ({ f with
                todo := rest
                recorded := f.recorded || ((io.read file).lookup f.pkgName).isNone && signer.isSome }, file')
        | (.error why, file') => ({ f with result := some (.error why) }, file')
      else ({ f with result := some (.error ((signer.map (repositoryMessage f.declared)).getD [])) }, file)

end Flight

/-! ## Runs -/

structure State where
  file : Option Pins
  flights : List Flight

namespace State

def recorded (s : State) (pkgName : Str) : Option Str := (s.file.getD ∅).lookup pkgName

/-- An install begins, or the install with a number makes its next call. -/
inductive Op
  | start (pkgName : Str) (declared : Option Str) (require : Bool) (signers : List (Option SignerIdentity))
  | advance (i : Nat) (io : Io)

def step (s : State) : Op → Option State
  | .start pkgName declared require signers =>
      some { s with flights := s.flights ++ [⟨pkgName, declared, require, signers, signers, none, false⟩] }
  | .advance i io =>
      s.flights[i]?.bind fun f =>
        if f.result.isSome then none
        else some { file := (f.next io s.file).2, flights := s.flights.set i (f.next io s.file).1 }

end State

/-! ## The latch -/

/-- What a later state of a run keeps of an earlier one: records do not change, an install that began after a signer was
recorded has passed with that signer only, and an install that was refused has recorded none. -/
structure Latched (s t : State) : Prop where
  kept : ∀ pkgName pin, s.recorded pkgName = some pin → t.recorded pkgName = some pin
  refused : ∀ pkgName pin, s.recorded pkgName = some pin → ∀ i f, s.flights.length ≤ i → t.flights[i]? = some f →
    f.pkgName = pkgName → ∀ result, f.result = some result → (∃ x ∈ f.signers, Flight.pinOf x ≠ some pin) →
      ∃ why, result = .error why
  clean : ∀ f ∈ t.flights, ∀ why, f.result = some (.error why) → f.recorded = false

/-- The file is read and is not cut short. -/
def Io.sound (io : Io) : Bool :=
  io.readable &&
    match io.write with
    | .cut _ => false
    | _ => true

/-- Where an install records the first signer of a package, those after it in its list fit as well and are the same. -/
def Flight.uniform (f : Flight) (s : State) : Bool :=
  match f.todo with
  | some signer :: rest =>
      (s.recorded f.pkgName).isSome || rest.all fun x => f.fits x && Flight.pinOf x = some signer.pin
  | _ => true

def State.goodStep (s : State) : State.Op → Bool
  | .start _ _ _ _ => true
  | .advance i io => io.sound && s.flights[i]?.all fun f => f.uniform s

end ThreeVa.Provenance

/-! ## The latch of recorded signers: what one call does, and what a run keeps -/

namespace ThreeVa.Provenance
open Text
open Store (SignerIdentity)

/-! ## One call -/

variable {io : Io} {pkgName : Str} {signer : Option Str} {file : Option Pins}

theorem read_of_sound (h : io.sound = true) (file : Option Pins) : io.read file = file.getD ∅ := by
  unfold Io.sound at h
  unfold Io.read
  rw [if_pos (Bool.and_eq_true_iff.mp h).1]

theorem not_cut_of_sound (h : io.sound = true) (why : Str) : io.write ≠ .cut why := by
  intro hcut
  simp [Io.sound, hcut] at h

theorem pin_ok_iff {recorded : Str} :
    (Store.checkSignerPin (some recorded) signer).1 = .ok () ↔ signer = some recorded := by
  cases signer with
  | none => simp [Store.checkSignerPin]
  | some s =>
      unfold Store.checkSignerPin
      by_cases heq : recorded = s
      · simp [heq]
      · simp [heq, Ne.symm heq]

theorem checkSignerPin_of_recorded (h : io.sound = true) {recorded : Str} (hrec : (file.getD ∅).lookup pkgName = some recorded) :
    checkSignerPin io pkgName signer file = ((Store.checkSignerPin (some recorded) signer).1, file) := by
  unfold checkSignerPin
  rw [read_of_sound h, hrec]

theorem checkSignerPin_of_none (h : io.sound = true) (hrec : (file.getD ∅).lookup pkgName = none)
    (signer : Option Str) :
    (checkSignerPin io pkgName signer file).2 = file ∨
      ∃ s, signer = some s ∧ checkSignerPin io pkgName signer file = (.ok (), some ((file.getD ∅).insert pkgName s)) := by
  unfold checkSignerPin
  rw [read_of_sound h, hrec]
  cases signer with
  | none => exact .inl rfl
  | some s =>
      simp only [Io.store]
      cases hwrite : io.write with
      | done => exact .inr ⟨s, rfl, rfl⟩
      | refused why => exact .inl rfl
      | cut why => exact absurd hwrite (not_cut_of_sound h why)

/-- A record is not overwritten. -/
theorem checkSignerPin_kept (h : io.sound = true) {other pin : Str} (hother : (file.getD ∅).lookup other = some pin) :
    ((checkSignerPin io pkgName signer file).2.getD ∅).lookup other = some pin := by
  cases hrec : (file.getD ∅).lookup pkgName with
  | some recorded =>
      rw [checkSignerPin_of_recorded h hrec]
      exact hother
  | none =>
      rcases checkSignerPin_of_none h hrec signer with hsame | ⟨s, rfl, hnew⟩
      · rw [hsame]
        exact hother
      · have hne : other ≠ pkgName := fun heq => by rw [heq, hrec] at hother; cases hother
        rw [hnew, Option.getD_some, Finmap.lookup_insert_of_ne _ hne]
        exact hother

/-- A call that passes leaves its signer recorded. -/
theorem checkSignerPin_ok (h : io.sound = true) {s : Str} (hok : (checkSignerPin io pkgName (some s) file).1 = .ok ()) :
    ((checkSignerPin io pkgName (some s) file).2.getD ∅).lookup pkgName = some s := by
  cases hrec : (file.getD ∅).lookup pkgName with
  | some recorded =>
      rw [checkSignerPin_of_recorded h hrec] at hok ⊢
      rw [Option.some.inj (pin_ok_iff.mp hok)]
      exact hrec
  | none =>
      unfold checkSignerPin Io.store at hok ⊢
      rw [read_of_sound h, hrec] at hok ⊢
      simp only at hok ⊢
      cases hwrite : io.write with
      | done => simp
      | refused why => rw [hwrite] at hok; cases hok
      | cut why => rw [hwrite] at hok; cases hok

/-- Where the file system works, a call is the check of the record of its package. -/
theorem checkSignerPin_refines (hread : io.readable = true) (hwrite : io.write = .done) :
    (checkSignerPin io pkgName signer file).1 = (Store.checkSignerPin ((file.getD ∅).lookup pkgName) signer).1 ∧
      ((checkSignerPin io pkgName signer file).2.getD ∅).lookup pkgName =
        (Store.checkSignerPin ((file.getD ∅).lookup pkgName) signer).2 := by
  have hsound : io.sound = true := by simp [Io.sound, hread, hwrite]
  cases hrec : (file.getD ∅).lookup pkgName with
  | some recorded =>
      rw [checkSignerPin_of_recorded hsound hrec, hrec]
      refine ⟨rfl, ?_⟩
      cases signer with
      | none => rfl
      | some s =>
          unfold Store.checkSignerPin
          by_cases heq : recorded = s <;> simp [heq]
  | none =>
      unfold checkSignerPin Io.store
      rw [read_of_sound hsound, hrec, hwrite]
      cases signer with
      | none => exact ⟨rfl, hrec⟩
      | some s => exact ⟨rfl, Finmap.lookup_insert _⟩

/-! ## One step of an install -/

namespace Flight

variable {f : Flight}

/-- The ways an install goes on. -/
theorem next_cases (io : Io) (f : Flight) (file : Option Pins) :
    (f.todo = [] ∧ f.next io file = ({ f with result := some (.ok ()) }, file)) ∨
      (∃ signer rest why, f.todo = signer :: rest ∧ f.fits signer = false ∧
        f.next io file = ({ f with result := some (.error why) }, file)) ∨
      ∃ signer rest, f.todo = signer :: rest ∧ f.fits signer = true ∧
        ((∃ why, (checkSignerPin io f.pkgName (pinOf signer) file).1 = .error why ∧
            f.next io file = ({ f with result := some (.error why) },
              (checkSignerPin io f.pkgName (pinOf signer) file).2)) ∨
          (checkSignerPin io f.pkgName (pinOf signer) file).1 = .ok () ∧
            f.next io file = ({ f with
              todo := rest
              recorded := f.recorded || ((io.read file).lookup f.pkgName).isNone && signer.isSome },
                (checkSignerPin io f.pkgName (pinOf signer) file).2)) := by
  unfold next
  cases htodo : f.todo with
  | nil => exact .inl ⟨rfl, rfl⟩
  | cons signer rest =>
      by_cases hfits : f.fits signer = true
      · refine .inr (.inr ⟨signer, rest, rfl, hfits, ?_⟩)
        simp only [hfits, ↓reduceIte]
        rcases hcheck : checkSignerPin io f.pkgName (pinOf signer) file with ⟨result, file'⟩
        cases result with
        | ok u => exact .inr ⟨rfl, rfl⟩
        | error why => exact .inl ⟨why, rfl, rfl⟩
      · have hfits : f.fits signer = false := Bool.eq_false_iff.mpr hfits
        refine .inr (.inl ⟨signer, rest, (signer.map (Store.repositoryMessage f.declared)).getD [], rfl, hfits, ?_⟩)
        simp only [hfits]
        rfl

theorem next_kept (h : io.sound = true) {other pin : Str} (hother : (file.getD ∅).lookup other = some pin) :
    ((f.next io file).2.getD ∅).lookup other = some pin := by
  rcases next_cases io f file with ⟨-, heq⟩ | ⟨_, _, _, -, -, heq⟩ | ⟨_, _, -, -, ⟨_, -, heq⟩ | ⟨-, heq⟩⟩
  · rw [heq]; exact hother
  · rw [heq]; exact hother
  · rw [heq]; exact checkSignerPin_kept h hother
  · rw [heq]; exact checkSignerPin_kept h hother

/-- What is known of an install that has recorded a signer: it goes on with that signer only, and is not refused. -/
def Settled (f : Flight) (file : Option Pins) : Prop :=
  f.recorded = true → (∀ why, f.result ≠ some (.error why)) ∧
    ∃ pin, (file.getD ∅).lookup f.pkgName = some pin ∧ ∀ x ∈ f.todo, f.fits x = true ∧ pinOf x = some pin

/-- What is known of an install that began after a signer was recorded for its package. -/
def Follows (f : Flight) (pin : Str) : Prop :=
  ∃ before, f.signers = before ++ f.todo ∧ (∀ x ∈ before, pinOf x = some pin) ∧ (f.result = some (.ok ()) → f.todo = [])

theorem Settled.next {s : State} (h : io.sound = true) (hnone : f.result = none) (huniform : f.uniform s = true)
    (hf : f.Settled s.file) : (f.next io s.file).1.Settled (f.next io s.file).2 := by
  rcases next_cases io f s.file with ⟨htodo, heq⟩ | ⟨signer, rest, why, htodo, hfits, heq⟩ |
    ⟨signer, rest, htodo, hfits, ⟨why, herr, heq⟩ | ⟨hok, heq⟩⟩
  · rw [heq]
    intro hrec
    obtain ⟨-, pin, hpin, -⟩ := hf hrec
    exact ⟨by simp, pin, hpin, by simp [htodo]⟩
  · -- an install that has recorded has only signers that fit
    rw [heq]
    intro hrec
    obtain ⟨-, pin, -, hall⟩ := hf hrec
    have := (hall signer (by simp [htodo])).1
    simp [hfits] at this
  · rw [heq]
    intro hrec
    obtain ⟨-, pin, hpin, hall⟩ := hf hrec
    rw [checkSignerPin_of_recorded h hpin, (hall signer (by simp [htodo])).2] at herr
    simp [pin_ok_iff.mpr rfl] at herr
  · rw [heq]
    intro hrec
    refine ⟨by simp [hnone], ?_⟩
    by_cases hbefore : f.recorded = true
    · obtain ⟨-, pin, hpin, hall⟩ := hf hbefore
      exact ⟨pin, checkSignerPin_kept h hpin, fun x hx => hall x (by simp [htodo, hx])⟩
    · -- the signer is recorded by this call
      simp only [hbefore, Bool.false_or, Bool.and_eq_true, read_of_sound h, Option.isNone_iff_eq_none] at hrec
      obtain ⟨hlookup, hsome⟩ := hrec
      obtain ⟨s', rfl⟩ := Option.isSome_iff_exists.mp hsome
      have hrest : rest.all (fun x => f.fits x && pinOf x = some s'.pin) = true := by
        have hnone : s.recorded f.pkgName = none := hlookup
        simpa [uniform, htodo, hnone] using huniform
      refine ⟨s'.pin, checkSignerPin_ok h hok, fun x hx => ?_⟩
      have hx' := List.all_eq_true.mp hrest x hx
      simp only [Bool.and_eq_true, decide_eq_true_eq] at hx'
      exact hx'

theorem Follows.next (h : io.sound = true) {pin : Str} (hpin : (file.getD ∅).lookup f.pkgName = some pin)
    (hnone : f.result = none) (hf : f.Follows pin) : (f.next io file).1.Follows pin := by
  obtain ⟨before, hsplit, hall, -⟩ := hf
  rcases next_cases io f file with ⟨htodo, heq⟩ | ⟨signer, rest, why, htodo, hfits, heq⟩ |
    ⟨signer, rest, htodo, hfits, ⟨why, herr, heq⟩ | ⟨hok, heq⟩⟩
  · rw [heq]
    exact ⟨before, hsplit, hall, fun _ => htodo⟩
  · rw [heq]
    exact ⟨before, hsplit, hall, by simp⟩
  · rw [heq]
    exact ⟨before, hsplit, hall, by simp⟩
  · rw [heq]
    rw [checkSignerPin_of_recorded h hpin, pin_ok_iff] at hok
    refine ⟨before ++ [signer], by simp [hsplit, htodo], fun x hx => ?_, by simp [hnone]⟩
    rcases List.mem_append.mp hx with hx | hx
    · exact hall x hx
    · rw [List.mem_singleton.mp hx]
      exact hok

theorem next_pkgName (io : Io) (f : Flight) (file : Option Pins) : (f.next io file).1.pkgName = f.pkgName := by
  rcases next_cases io f file with ⟨-, heq⟩ | ⟨_, _, _, -, -, heq⟩ | ⟨_, _, -, -, ⟨_, -, heq⟩ | ⟨-, heq⟩⟩ <;> rw [heq]

end Flight

/-! ## Runs -/

namespace State

variable {s t : State}

/-- What a step does to the installs: a new one at the end, or one that goes on. -/
theorem step_cases {op : Op} (h : s.step op = some t) :
    (∃ pkgName declared require signers, op = .start pkgName declared require signers ∧
      t = ⟨s.file, s.flights ++ [⟨pkgName, declared, require, signers, signers, none, false⟩]⟩) ∨
      ∃ i io f, op = .advance i io ∧ s.flights[i]? = some f ∧ f.result = none ∧
        t = ⟨(f.next io s.file).2, s.flights.set i (f.next io s.file).1⟩ := by
  cases op with
  | start pkgName declared require signers =>
      cases h
      exact .inl ⟨pkgName, declared, require, signers, rfl, rfl⟩
  | advance i io =>
      simp only [step, Option.bind_eq_some_iff] at h
      obtain ⟨f, hf, h⟩ := h
      split at h
      · cases h
      · rename_i hresult
        cases h
        exact .inr ⟨i, io, f, rfl, hf, by simpa using hresult, rfl⟩

/-- Every install is settled. -/
def AllSettled (s : State) : Prop := ∀ f ∈ s.flights, f.Settled s.file

/-- From the `n`-th install on, those of a package whose signer is recorded follow it. -/
def AllFollow (pkgName pin : Str) (n : Nat) (s : State) : Prop :=
  s.recorded pkgName = some pin ∧
    ∀ i f, n ≤ i → s.flights[i]? = some f → f.pkgName = pkgName → f.Follows pin

theorem AllSettled.step {op : Op} (hs : s.AllSettled) (hgood : s.goodStep op = true) (h : s.step op = some t) :
    t.AllSettled := by
  rcases step_cases h with ⟨pkgName, declared, require, signers, rfl, rfl⟩ | ⟨i, io, f, rfl, hf, hnone, rfl⟩
  · intro g hg
    rcases List.mem_append.mp hg with hg | hg
    · exact hs g hg
    · rw [List.mem_singleton.mp hg]
      exact fun hrec => by cases hrec
  · obtain ⟨hsound, huniform⟩ := Bool.and_eq_true_iff.mp hgood
    rw [hf, Option.all_some] at huniform
    intro g hg
    rcases List.mem_or_eq_of_mem_set hg with hg | rfl
    · intro hrec
      obtain ⟨hresult, pin, hpin, hall⟩ := hs g hg hrec
      exact ⟨hresult, pin, f.next_kept hsound hpin, hall⟩
    · exact (hs f (List.mem_of_getElem? hf)).next hsound hnone huniform

theorem AllFollow.step {pkgName pin : Str} {n : Nat} {op : Op} (hs : s.AllFollow pkgName pin n) (hgood : s.goodStep op = true)
    (h : s.step op = some t) : t.AllFollow pkgName pin n := by
  obtain ⟨hpin, hfollow⟩ := hs
  rcases step_cases h with ⟨name, declared, require, signers, rfl, rfl⟩ | ⟨i, io, f, rfl, hf, hnone, rfl⟩
  · refine ⟨hpin, fun j g hj hg hname => ?_⟩
    by_cases hlt : j < s.flights.length
    · exact hfollow j g hj (by rwa [List.getElem?_append_left hlt] at hg) hname
    · rw [List.getElem?_append_right (by omega), List.getElem?_singleton] at hg
      split at hg
      · cases hg
        exact ⟨[], rfl, by simp, by simp⟩
      · cases hg
  · have hsound := (Bool.and_eq_true_iff.mp hgood).1
    refine ⟨f.next_kept hsound hpin, fun j g hj hg hname => ?_⟩
    by_cases hij : i = j
    · subst hij
      have hlt : i < s.flights.length := List.getElem?_eq_some_iff.mp hf |>.1
      rw [List.getElem?_set_self hlt] at hg
      cases hg
      rw [Flight.next_pkgName] at hname
      exact (hfollow i f hj hf hname).next hsound (by rw [hname]; exact hpin) hnone
    · rw [List.getElem?_set_ne hij] at hg
      exact hfollow j g hj hg hname

end State

end ThreeVa.Provenance
