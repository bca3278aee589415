import ThreeVa.Bins.Links

/-!
# Where the links lead

The links of the top level are computed from the directory they are in; those of a nested level are computed for the
top level and then taken from the nested one.
-/

namespace ThreeVa.Bins
open Text Entries Lexical

/-- Followed from its directory, the link leads to the entry it was made for. -/
def Shim.Works (s : Shim) : Prop := normalize (s.dir ++ s.target) = normalize s.link.entry

/-- The path of a link of the top level, taken from a nested directory, leads to the entry: it names a directory whose
index is the entry, or it climbs to the root from both places. -/
def RightFromNested (disk : Disk) (root nested : Path) (entry : Path) : Prop :=
  let direct := nested ++ relFrom (bin root) entry
  if disk.isFile direct = true ∨ disk.isDir direct = false then
    nested.length - (bin root).length + common (bin root) entry ≤ climb (entry.drop (common (bin root) entry))
  else normalize ((disk.directoryEntry direct).getD direct) = normalize entry

variable {disk : Disk} {root : List Str}

theorem bin_ofNames (l : List Str) : bin (ofNames l) = ofNames (l ++ [binName]) := by simp [bin, ofNames]

/-- A link of a nested level. -/
structure NestedShim (disk : Disk) (root : List Str) (below : List Str) (s : Shim) : Prop where
  deep : 2 ≤ below.length
  made : s = disk.nestedShim (ofNames (root ++ below)) s.link
  target : s.link.target = relFrom (bin (ofNames root)) s.link.entry

theorem works_top {s : Shim} (hdir : s.dir = bin (ofNames root))
    (htarget : s.target = relFrom (bin (ofNames root)) s.link.entry) : s.Works := by
  rw [Shim.Works, hdir, htarget, bin_ofNames, normalize_relFrom]

theorem NestedShim.works_iff {below : List Str} {s : Shim} (h : NestedShim disk root below s) :
    s.Works ↔ RightFromNested disk (ofNames root) (ofNames (root ++ below)) s.link.entry := by
  have hdir : s.dir = bin (ofNames (root ++ below)) := congrArg Shim.dir h.made
  have htarget : s.target = relFrom (bin (ofNames (root ++ below)))
      (disk.resolveBinEntry (ofNames (root ++ below)) ⟨false, s.link.target⟩) := congrArg Shim.target h.made
  rw [Shim.Works, hdir, htarget, bin_ofNames, normalize_relFrom, Disk.resolveBinEntry, h.target]
  simp only [join, Bool.false_eq_true, ↓reduceIte]
  unfold RightFromNested
  generalize hdirect : ofNames (root ++ below) ++ relFrom (bin (ofNames root)) s.link.entry = direct
  have hlen : (root ++ [binName]).length < (root ++ below).length := by
    have := h.deep
    simp only [List.length_append, List.length_singleton]
    omega
  have hclimb : normalize direct = normalize s.link.entry ↔ (ofNames (root ++ below)).length -
      (bin (ofNames root)).length + common (bin (ofNames root)) s.link.entry ≤
        climb (s.link.entry.drop (common (bin (ofNames root)) s.link.entry)) := by
    rw [← hdirect, bin_ofNames, normalize_relFrom_iff hlen]
    simp only [ofNames, List.length_map]
  cases hfile : disk.isFile direct with
  | true => simpa [hfile] using hclimb
  | false =>
      cases hd : disk.isDir direct with
      | true => simp [hfile, hd]
      | false => simpa [hfile, hd] using hclimb

end ThreeVa.Bins

/-!
## Who gets a command

A level of the walk claims commands in an order; the walk below the packages of the level only adds links to nested
directories.
-/

namespace ThreeVa.Bins
open Text Entries Lexical

/-! ## Claims -/

/-- A claim as it changes the map. -/
def takeClaim (wanted : Entries Str BinLink) (link : BinLink) : Entries Str BinLink :=
  match wanted.get? link.name with
  | none => wanted.insert link.name link
  | some existing =>
      if owns link.owner link.name && !owns existing.owner link.name then wanted.insert link.name link else wanted

theorem claim_wanted (st : Walk) (link : BinLink) : (st.claim link).wanted = takeClaim st.wanted link := by
  unfold Walk.claim takeClaim
  cases st.wanted.get? link.name <;> rfl

/-- The first one preferred, or else the first. -/
def preferred {α : Type} (p : α → Bool) (l : List α) : Option α := (l.find? p).or l.head?

theorem preferred_cons_cons {α : Type} (p : α → Bool) (a b : α) (l : List α) :
    preferred p (a :: b :: l) = preferred p ((if p b && !p a then b else a) :: l) := by
  unfold preferred
  cases ha : p a <;> cases hb : p b <;> simp [ha, hb]

/-- A command goes to the first package that is named after it, or else to the first that claims it. -/
theorem get?_foldl_takeClaim (links : List BinLink) (wanted : Entries Str BinLink) (name : Str) :
    (links.foldl takeClaim wanted).get? name =
      preferred (fun link => owns link.owner name)
        ((wanted.get? name).toList ++ links.filter fun link => link.name = name) := by
  induction links generalizing wanted with
  | nil =>
      cases hold : wanted.get? name with
      | none => simpa [preferred] using hold
      | some existing => cases howns : owns existing.owner name <;> simp [preferred, hold, howns]
  | cons link links ih =>
      rw [List.foldl_cons, ih]
      by_cases hname : link.name = name
      · subst hname
        rw [List.filter_cons_of_pos (by simp), takeClaim]
        cases hold : wanted.get? link.name with
        | none => simp [get?_insert]
        | some existing =>
            rw [Option.toList_some, List.singleton_append, preferred_cons_cons]
            by_cases hwins : (owns link.owner link.name && !owns existing.owner link.name) = true
            · simp [hwins, get?_insert]
            · simp [hwins, hold]
      · rw [List.filter_cons_of_neg (by simpa using hname)]
        have hkeep : (takeClaim wanted link).get? name = wanted.get? name := by
          unfold takeClaim
          split
          · rw [get?_insert, if_neg (Ne.symm hname)]
          · split
            · rw [get?_insert, if_neg (Ne.symm hname)]
            · rfl
        rw [hkeep]

namespace Disk

variable (disk : Disk) (root : Path)

/-- The valid claims of a package. -/
def packageClaims (path : Path) (pkgName : Str) : List BinLink :=
  (((disk.manifest path).map (binEntries · pkgName)).getD []).filterMap fun e =>
    if (disk.refusal path pkgName e).isNone then some (disk.linkOf root path pkgName e) else none

def entryClaims (recurse : Path → List BinLink) (dir : Path) (fileName : Str) : List BinLink :=
  let path := dir ++ [.into fileName]
  if fileName.head? = some '.' then []
  else if fileName.head? = some '@' && disk.isDir path then recurse path
  else if !disk.isDir path then []
  else ((packageName path).map (disk.packageClaims root path)).getD []

/-- The valid claims of a level, in the order in which they are made. -/
def levelClaims : Nat → Path → List BinLink
  | 0, _ => []
  | fuel + 1, dir =>
      match disk.readDir dir with
      | none => []
      | some names => (names.insertionSort (· ≤ ·)).flatMap (disk.entryClaims root (levelClaims fuel) dir)

variable {disk root}

theorem foldl_visitBin_wanted (path : Path) (pkgName : Str) (entries : List (Str × Str)) (st : Walk) :
    (entries.foldl (disk.visitBin root path pkgName) st).wanted =
      (entries.filterMap fun e =>
        if (disk.refusal path pkgName e).isNone then some (disk.linkOf root path pkgName e) else none).foldl
          takeClaim st.wanted := by
  induction entries generalizing st with
  | nil => rfl
  | cons e entries ih =>
      rw [List.foldl_cons, ih, List.filterMap_cons, visitBin]
      cases hr : disk.refusal path pkgName e with
      | some reason => simp
      | none => simp [claim_wanted]

theorem visitEntry_wanted {recurse : Path → Walk → Walk} {claims : Path → List BinLink}
    (hrec : ∀ path st, (recurse path st).wanted = (claims path).foldl takeClaim st.wanted) (dir : Path) (st : Walk)
    (fileName : Str) : (disk.visitEntry root recurse dir st fileName).wanted =
      (disk.entryClaims root claims dir fileName).foldl takeClaim st.wanted := by
  unfold visitEntry entryClaims
  by_cases h1 : fileName.head? = some '.'
  · simp [h1]
  by_cases h2 : (fileName.head? = some '@' && disk.isDir (dir ++ [.into fileName])) = true
  · simp [h1, h2, hrec]
  by_cases h3 : (!disk.isDir (dir ++ [.into fileName])) = true
  · simp [h1, h2, h3]
  simp only [h1, h2, h3, Bool.false_eq_true, ↓reduceIte]
  cases hp : packageName (dir ++ [.into fileName]) with
  | none => simp
  | some pkgName =>
      simp only [Option.map_some, Option.getD_some, packageClaims]
      rw [← foldl_visitBin_wanted]
      split <;> rfl

theorem collectFromLevel_wanted (fuel : Nat) (dir : Path) (st : Walk) :
    (disk.collectFromLevel root fuel dir st).wanted = (disk.levelClaims root fuel dir).foldl takeClaim st.wanted := by
  induction fuel generalizing dir st with
  | zero => rfl
  | succ fuel ih =>
      rw [collectFromLevel, levelClaims]
      cases disk.readDir dir with
      | none => rfl
      | some names =>
          simp only
          generalize names.insertionSort (· ≤ ·) = sorted
          induction sorted generalizing st with
          | nil => rfl
          | cons n sorted ihs =>
              rw [List.foldl_cons, ihs, List.flatMap_cons, List.foldl_append, visitEntry_wanted ih]

end Disk

/-! ## Links -/

/-- What the walk keeps: commands are filed under their names, and all links written so far are nested ones. -/
structure Walk.Ok (disk : Disk) (root : List Str) (st : Walk) : Prop where
  filed : ∀ x ∈ st.wanted.list, x.1 = x.2.name ∧ x.2.target = relFrom (bin (ofNames root)) x.2.entry
  nested : ∀ s ∈ st.summary.shims, ∃ below, NestedShim disk root below s

namespace Walk.Ok

variable {disk : Disk} {root : List Str} {st : Walk}

theorem insert (h : st.Ok disk root) {link : BinLink} (hl : link.target = relFrom (bin (ofNames root)) link.entry)
    {summary : Summary} (hs : summary.shims = st.summary.shims) :
    Walk.Ok disk root ⟨st.wanted.insert link.name link, summary⟩ where
  filed := by
    intro x hx
    rcases List.mem_append.mp hx with hx | hx
    · exact h.filed x (List.mem_filter.mp hx).1
    · obtain rfl := List.mem_singleton.mp hx
      exact ⟨rfl, hl⟩
  nested := by
    simp only [hs]
    exact h.nested

theorem summary (h : st.Ok disk root) {summary : Summary} (hs : summary.shims = st.summary.shims) :
    Walk.Ok disk root ⟨st.wanted, summary⟩ where
  filed := h.filed
  nested := by
    simp only [hs]
    exact h.nested

theorem visitBin (h : st.Ok disk root) (path : Path) (pkgName : Str) (e : Str × Str) :
    (disk.visitBin (ofNames root) path pkgName st e).Ok disk root := by
  unfold Disk.visitBin
  split
  · exact h.summary rfl
  · unfold Walk.claim
    split
    · exact h.insert rfl rfl
    · split
      · exact h.insert rfl rfl
      · exact h.summary rfl

theorem foldl_visitBin (h : st.Ok disk root) (path : Path) (pkgName : Str) (entries : List (Str × Str)) :
    (entries.foldl (disk.visitBin (ofNames root) path pkgName) st).Ok disk root := by
  induction entries generalizing st with
  | nil => exact h
  | cons e entries ih => exact ih (h.visitBin path pkgName e)

theorem mem_inOrder {wanted : Entries Str BinLink} {link : BinLink} :
    link ∈ Disk.inOrder wanted ↔ ∃ name, (name, link) ∈ wanted.list := by
  simp [Disk.inOrder]

theorem visitEntry (h : st.Ok disk root) {recurse : Path → Walk → Walk}
    (hrec : ∀ l st, Walk.Ok disk root st → (recurse (ofNames (root ++ l)) st).Ok disk root) (l : List Str)
    (fileName : Str) : (disk.visitEntry (ofNames root) recurse (ofNames (root ++ l)) st fileName).Ok disk root := by
  have hpath : ofNames (root ++ l) ++ [.into fileName] = ofNames (root ++ (l ++ [fileName])) := by simp [ofNames]
  unfold Disk.visitEntry
  simp only [hpath]
  split
  · exact h
  split
  · exact hrec _ _ h
  split
  · exact h
  split
  · exact h
  · rename_i pkgName _
    have hbins := h.foldl_visitBin (ofNames (root ++ (l ++ [fileName]))) pkgName
      (((disk.manifest (ofNames (root ++ (l ++ [fileName])))).map (binEntries · pkgName)).getD [])
    split
    · have hnested : ofNames (root ++ (l ++ [fileName])) ++ [.into nodeModulesName] =
          ofNames (root ++ (l ++ [fileName, nodeModulesName])) := by simp [ofNames]
      rw [hnested]
      have hinner := hrec (l ++ [fileName, nodeModulesName]) ⟨Entries.empty, _⟩
        ⟨fun x hx => absurd hx List.not_mem_nil, hbins.nested⟩
      refine ⟨hbins.filed, fun s hs => ?_⟩
      rcases List.mem_append.mp hs with hs | hs
      · exact hinner.nested s hs
      · obtain ⟨link, hlink, rfl⟩ := List.mem_map.mp hs
        obtain ⟨name, hname⟩ := mem_inOrder.mp hlink
        exact ⟨l ++ [fileName, nodeModulesName], by simp, rfl, (hinner.filed _ hname).2⟩
    · exact hbins

theorem collectFromLevel (h : st.Ok disk root) (fuel : Nat) (l : List Str) :
    (disk.collectFromLevel (ofNames root) fuel (ofNames (root ++ l)) st).Ok disk root := by
  induction fuel generalizing l st with
  | zero => exact h
  | succ fuel ih =>
      rw [Disk.collectFromLevel]
      split
      · exact h
      · rename_i names _
        generalize names.insertionSort (· ≤ ·) = sorted
        induction sorted generalizing st with
        | nil => exact h
        | cons n sorted ihs => exact ihs (h.visitEntry (fun l st hst => ih hst l) l n)

theorem start : Walk.Ok disk root ⟨Entries.empty, [], [], []⟩ where
  filed := fun _ hx => absurd hx List.not_mem_nil
  nested := fun _ hs => absurd hs List.not_mem_nil

end Walk.Ok

end ThreeVa.Bins
