import ThreeVa.Permissions.Path

/-!
# Walking a path, and what `resolvePhysically` returns
-/

namespace ThreeVa.Permissions
open Text

namespace FileSystem

variable {fs fs' : FileSystem}

/-! ## The tree -/

theorem node_dropLast {l : Loc} (h : fs.node l ≠ none) : fs.node l.dropLast = some .dir := by
  rcases List.eq_nil_or_concat l with rfl | ⟨l', n, rfl⟩
  · exact fs.root_dir
  · simpa using fs.parent_dir l' n (by simpa using h)

theorem node_of_prefix {l x : Loc} (h : fs.node l ≠ none) (hx : x <+: l) : x = l ∨ fs.node x = some .dir := by
  obtain ⟨t, rfl⟩ := hx
  induction t using List.reverseRecOn with
  | nil => simp
  | append_singleton t n ih =>
      right
      have hd : fs.node (x ++ t) = some .dir := fs.parent_dir (x ++ t) n (by simpa using h)
      rcases ih (by simp [hd]) with heq | hdir
      · rw [heq]; exact hd
      · exact hdir

/-! ## Walks -/

def follow (fs : FileSystem) : Nat → Loc → List Seg → Walk
  | 0, _, _ => .loop
  | budget + 1, cur, segs => fs.walk budget cur segs

@[simp] theorem walk_nil (n : Nat) (cur : Loc) : fs.walk n cur [] = .reached cur n := by
  cases n <;> rfl

theorem walk_notDir {n : Nat} {cur : Loc} {seg : Seg} {rest : List Seg} (h : fs.node cur ≠ some .dir) :
    fs.walk n cur (seg :: rest) = .notDir := by
  cases n <;> simp [walk, walkSegs, h]

theorem walk_curDir {n : Nat} {cur : Loc} {rest : List Seg} (h : fs.node cur = some .dir) :
    fs.walk n cur (.curDir :: rest) = fs.walk n cur rest := by
  cases n <;> simp [walk, walkSegs, h]

theorem walk_parentDir {n : Nat} {cur : Loc} {rest : List Seg} (h : fs.node cur = some .dir) :
    fs.walk n cur (.parentDir :: rest) = fs.walk n cur.dropLast rest := by
  cases n <;> simp [walk, walkSegs, h]

theorem walk_missing {n : Nat} {cur : Loc} {name : Str} {rest : List Seg} (h : fs.node cur = some .dir)
    (hn : fs.node (cur ++ [name]) = none) : fs.walk n cur (.normal name :: rest) = .missing cur name rest := by
  cases n <;> simp [walk, walkSegs, h, hn]

theorem walk_plain {n : Nat} {cur : Loc} {name : Str} {rest : List Seg} (h : fs.node cur = some .dir)
    (hn : fs.node (cur ++ [name]) = some .file ∨ fs.node (cur ++ [name]) = some .dir) :
    fs.walk n cur (.normal name :: rest) = fs.walk n (cur ++ [name]) rest := by
  rcases hn with hn | hn <;> cases n <;> simp [walk, walkSegs, h, hn]

theorem walk_link {n : Nat} {cur : Loc} {name : Str} {rest : List Seg} {t : PathBuf}
    (h : fs.node cur = some .dir) (hn : fs.node (cur ++ [name]) = some (.link t)) :
    fs.walk n cur (.normal name :: rest) =
      fs.follow n (if t.absolute then [] else cur) (t.segs ++ rest) := by
  cases n <;> simp [walk, walkSegs, follow, h, hn]

theorem seg_cases (fs : FileSystem) (cur : Loc) (seg : Seg) :
    fs.node cur ≠ some .dir ∨ fs.node cur = some .dir ∧
      (seg = .curDir ∨ seg = .parentDir ∨ ∃ name, seg = .normal name ∧
        (fs.node (cur ++ [name]) = none ∨
          (fs.node (cur ++ [name]) = some .file ∨ fs.node (cur ++ [name]) = some .dir) ∨
          ∃ t, fs.node (cur ++ [name]) = some (.link t))) := by
  by_cases h : fs.node cur = some .dir
  · refine Or.inr ⟨h, ?_⟩
    cases seg with
    | curDir => simp
    | parentDir => simp
    | normal name =>
        rcases hn : fs.node (cur ++ [name]) with _ | _ | _ | t <;> simp [hn]
  · exact Or.inl h

/-- Induction over a walk: on the components, and on the links that may be followed. -/
theorem walk_induction (fs : FileSystem) {motive : Nat → Loc → List Seg → Prop}
    (nil : ∀ n cur, motive n cur [])
    (notDir : ∀ n cur seg rest, fs.node cur ≠ some .dir → motive n cur (seg :: rest))
    (curDir : ∀ n cur rest, fs.node cur = some .dir → motive n cur rest → motive n cur (.curDir :: rest))
    (parentDir : ∀ n cur rest, fs.node cur = some .dir → motive n cur.dropLast rest →
      motive n cur (.parentDir :: rest))
    (missing : ∀ n cur name rest, fs.node cur = some .dir → fs.node (cur ++ [name]) = none →
      motive n cur (.normal name :: rest))
    (plain : ∀ n cur name rest, fs.node cur = some .dir →
      (fs.node (cur ++ [name]) = some .file ∨ fs.node (cur ++ [name]) = some .dir) →
      motive n (cur ++ [name]) rest → motive n cur (.normal name :: rest))
    (link : ∀ n cur name rest t, fs.node cur = some .dir → fs.node (cur ++ [name]) = some (.link t) →
      (∀ m, n = m + 1 → motive m (if t.absolute then [] else cur) (t.segs ++ rest)) →
      motive n cur (.normal name :: rest))
    (n : Nat) (cur : Loc) (segs : List Seg) : motive n cur segs := by
  induction n using Nat.strong_induction_on generalizing cur segs with
  | _ n ihn =>
    induction segs generalizing cur with
    | nil => exact nil n cur
    | cons seg rest ih =>
        rcases seg_cases fs cur seg with h | ⟨h, rfl | rfl | ⟨name, rfl, hn | hn | ⟨t, hn⟩⟩⟩
        · exact notDir n cur seg rest h
        · exact curDir n cur rest h (ih cur)
        · exact parentDir n cur rest h (ih _)
        · exact missing n cur name rest h hn
        · exact plain n cur name rest h hn (ih _)
        · exact link n cur name rest t h hn fun m hm => ihn m (by omega) _ _

end FileSystem

def Walk.extend (fs : FileSystem) (more : List Seg) : Walk → Walk
  | .reached cur budget => fs.walk budget cur more
  | .missing dir name rest => .missing dir name (rest ++ more)
  | .notDir => .notDir
  | .loop => .loop

namespace FileSystem

variable {fs fs' : FileSystem}

theorem walk_append (n : Nat) (cur : Loc) (xs ys : List Seg) :
    fs.walk n cur (xs ++ ys) = (fs.walk n cur xs).extend fs ys := by
  induction n, cur, xs using walk_induction fs with
  | nil n cur => simp [Walk.extend]
  | notDir n cur seg rest h => simp [walk_notDir h, Walk.extend]
  | curDir n cur rest h ih => simpa [walk_curDir h] using ih
  | parentDir n cur rest h ih => simpa [walk_parentDir h] using ih
  | missing n cur name rest h hn => simp [walk_missing h hn, Walk.extend]
  | plain n cur name rest h hn ih => simpa [walk_plain h hn] using ih
  | link n cur name rest t h hn ih =>
      rw [List.cons_append, walk_link h hn, walk_link h hn]
      cases n with
      | zero => rfl
      | succ m => simpa [follow] using ih m rfl

theorem walk_reached_plain {n : Nat} {cur loc : Loc} {segs : List Seg} {m : Nat}
    (hc : fs.node cur = some .file ∨ fs.node cur = some .dir) (h : fs.walk n cur segs = .reached loc m) :
    fs.node loc = some .file ∨ fs.node loc = some .dir := by
  induction n, cur, segs using walk_induction fs with
  | nil n cur => simp only [walk_nil, Walk.reached.injEq] at h; rw [← h.1]; exact hc
  | notDir n cur seg rest hd => simp [walk_notDir hd] at h
  | curDir n cur rest hd ih => rw [walk_curDir hd] at h; exact ih hc h
  | parentDir n cur rest hd ih =>
      rw [walk_parentDir hd] at h
      exact ih (Or.inr (node_dropLast (by simp [hd]))) h
  | missing n cur name rest hd hn => simp [walk_missing hd hn] at h
  | plain n cur name rest hd hn ih => rw [walk_plain hd hn] at h; exact ih hn h
  | link n cur name rest t hd hn ih =>
      rw [walk_link hd hn] at h
      cases n with
      | zero => simp [follow] at h
      | succ m =>
          apply ih m rfl ?_ h
          split
          · exact Or.inr fs.root_dir
          · exact Or.inr hd

/-- What exists stays where it is when plain directories and files are added. -/
theorem Extends.walk_reached (hx : fs.Extends fs') {n : Nat} {cur loc : Loc} {segs : List Seg} {m : Nat}
    (h : fs.walk n cur segs = .reached loc m) : fs'.walk n cur segs = .reached loc m := by
  induction n, cur, segs using walk_induction fs with
  | nil n cur => simpa using h
  | notDir n cur seg rest hd => simp [walk_notDir hd] at h
  | curDir n cur rest hd ih => rw [walk_curDir hd] at h; rw [walk_curDir (hx.1 _ _ hd)]; exact ih h
  | parentDir n cur rest hd ih => rw [walk_parentDir hd] at h; rw [walk_parentDir (hx.1 _ _ hd)]; exact ih h
  | missing n cur name rest hd hn => simp [walk_missing hd hn] at h
  | plain n cur name rest hd hn ih =>
      rw [walk_plain hd hn] at h
      rw [walk_plain (hx.1 _ _ hd) (hn.imp (hx.1 _ _) (hx.1 _ _))]
      exact ih h
  | link n cur name rest t hd hn ih =>
      rw [walk_link hd hn] at h
      rw [walk_link (hx.1 _ _ hd) (hx.1 _ _ hn)]
      cases n with
      | zero => simp [follow] at h
      | succ m => exact ih m rfl h

end FileSystem

/-! ## Appending the missing tail -/

theorem appendTail_prefix {l out : Loc} {segs : List Seg} (h : appendTail l segs = some out) : l <+: out := by
  induction segs generalizing l with
  | nil => simp only [appendTail, Option.some.injEq] at h; simp [h]
  | cons seg rest ih =>
      cases seg with
      | curDir => exact ih h
      | parentDir => simp [appendTail] at h
      | normal n => exact (List.prefix_append l [n]).trans (ih h)

theorem appendTail_parentDir {l : Loc} {segs : List Seg} (h : .parentDir ∈ segs) : appendTail l segs = none := by
  induction segs generalizing l with
  | nil => simp at h
  | cons seg rest ih =>
      cases seg with
      | curDir => exact ih (by simpa using h)
      | parentDir => rfl
      | normal n => exact ih (by simpa using h)

/-- Where no link is in the way, a walk lands where the components are appended. -/
theorem FileSystem.location_of_no_link {fs : FileSystem} {n : Nat} {cur loc : Loc} {segs : List Seg}
    (hp : .parentDir ∉ segs) (hl : ∀ l t, fs.node (cur ++ l) ≠ some (.link t))
    (h : (fs.walk n cur segs).location = some loc) : appendTail cur segs = some loc := by
  induction segs generalizing cur with
  | nil => simpa [Walk.location, appendTail] using h
  | cons seg rest ih =>
      simp only [List.mem_cons, not_or] at hp
      rcases seg_cases fs cur seg with hd | ⟨hd, rfl | rfl | ⟨name, rfl, hn | hn | ⟨t, hn⟩⟩⟩
      · simp [walk_notDir hd, Walk.location] at h
      · rw [walk_curDir hd] at h; exact ih hp.2 hl h
      · exact absurd rfl hp.1
      · simpa [walk_missing hd hn, Walk.location, appendTail] using h
      · rw [walk_plain hd hn] at h
        exact ih hp.2 (fun l t => by simpa using hl (name :: l) t) h
      · exact absurd hn (hl [name] t)

/-! ## The longest existing part -/

namespace FileSystem

variable {fs fs' : FileSystem} {pre post : List Seg} {cur : Loc}

theorem walk_reached_left {n : Nat} {xs ys : List Seg} {loc : Loc} {m : Nat}
    (h : fs.walk n cur (xs ++ ys) = .reached loc m) : ∃ loc' m', fs.walk n cur xs = .reached loc' m' := by
  rw [walk_append] at h
  cases hw : fs.walk n cur xs with
  | reached loc' m' => exact ⟨loc', m', rfl⟩
  | missing dir name rest => simp [hw, Walk.extend] at h
  | notDir => simp [hw, Walk.extend] at h
  | loop => simp [hw, Walk.extend] at h

theorem LongestExisting.length_le {pre' post' : List Seg} {cur' : Loc} (h : fs.LongestExisting pre post cur)
    (h' : fs.LongestExisting pre' post' cur') (he : pre ++ post = pre' ++ post') : pre'.length ≤ pre.length := by
  by_contra hlt
  obtain ⟨mid, hpre, hpost⟩ | ⟨mid, hpre, hpost⟩ := List.append_eq_append_iff.mp he
  · -- a longer prefix resolves, so the component after `pre` would resolve too
    subst hpre hpost
    cases mid with
    | nil => simp at hlt
    | cons seg rest =>
        obtain ⟨⟨m', hw⟩, -⟩ := h'
        rw [show pre ++ seg :: rest = (pre ++ [seg]) ++ rest by simp] at hw
        obtain ⟨loc, m, hr⟩ := walk_reached_left hw
        exact h.2 seg (rest ++ post') (by simp) loc m hr
  · subst hpre; simp at hlt

theorem LongestExisting.unique {pre' post' : List Seg} {cur' : Loc} (h : fs.LongestExisting pre post cur)
    (h' : fs.LongestExisting pre' post' cur') (he : pre ++ post = pre' ++ post') :
    pre = pre' ∧ post = post' ∧ cur = cur' := by
  have hl : pre.length = pre'.length := Nat.le_antisymm (h'.length_le h he.symm) (h.length_le h' he)
  obtain ⟨rfl, rfl⟩ := List.append_inj he hl
  obtain ⟨⟨m, hw⟩, -⟩ := h
  obtain ⟨⟨m', hw'⟩, -⟩ := h'
  rw [hw] at hw'
  cases hw'
  exact ⟨rfl, rfl, rfl⟩

theorem LongestExisting.plain (h : fs.LongestExisting pre post cur) :
    fs.node cur = some .file ∨ fs.node cur = some .dir := by
  obtain ⟨⟨m, hw⟩, -⟩ := h
  exact walk_reached_plain (Or.inr fs.root_dir) hw

/-- Why the longest existing part stops: at the end, at something that is no directory, at a name that does not
exist, or at a link. -/
theorem LongestExisting.cases (h : fs.LongestExisting pre post cur) :
    (post = [] ∧ ∃ m, fs.walk maxSymlinks [] (pre ++ post) = .reached cur m) ∨
      ∃ seg rest, post = seg :: rest ∧
        (fs.node cur = some .file ∨ fs.node cur = some .dir ∧ ∃ name, seg = .normal name ∧
          (fs.node (cur ++ [name]) = none ∨ ∃ t, fs.node (cur ++ [name]) = some (.link t))) := by
  have hp := h.plain
  obtain ⟨⟨m, hw⟩, hnext⟩ := h
  cases post with
  | nil => exact Or.inl ⟨rfl, m, by simpa using hw⟩
  | cons seg rest =>
      refine Or.inr ⟨seg, rest, rfl, ?_⟩
      have hstep : ∀ loc budget, fs.walk m cur [seg] ≠ .reached loc budget := by
        intro loc budget hr
        exact hnext seg rest rfl loc budget (by rw [walk_append, hw]; exact hr)
      rcases seg_cases fs cur seg with hd | ⟨hd, rfl | rfl | ⟨name, rfl, hn | hn | ⟨t, hn⟩⟩⟩
      · exact Or.inl (hp.resolve_right hd)
      · exact absurd (by rw [walk_curDir hd, walk_nil]) (hstep cur m)
      · exact absurd (by rw [walk_parentDir hd, walk_nil]) (hstep cur.dropLast m)
      · exact Or.inr ⟨hd, name, rfl, Or.inl hn⟩
      · exact absurd (by rw [walk_plain hd hn, walk_nil]) (hstep (cur ++ [name]) m)
      · exact Or.inr ⟨hd, name, rfl, Or.inr ⟨t, hn⟩⟩

/-- In an extension the walk goes on from where the longest existing part ended. -/
theorem LongestExisting.walk_extends (h : fs.LongestExisting pre post cur) (hx : fs.Extends fs') :
    ∃ m, fs'.walk maxSymlinks [] (pre ++ post) = fs'.walk m cur post := by
  obtain ⟨⟨m, hw⟩, -⟩ := h
  exact ⟨m, by rw [walk_append, hx.walk_reached hw]; rfl⟩

theorem Extends.refl (fs : FileSystem) : fs.Extends fs :=
  ⟨fun _ _ h => h, fun _ _ h h' => by rw [h] at h'; cases h'⟩

end FileSystem

/-! ## `resolvePhysically` -/

variable {env : PathEnv} {p : PathBuf}

theorem canonicalize_eq_some (hp : p.absolute = true) {loc : Loc} :
    env.canonicalize p = some loc ↔ ∃ m, env.fs.walk maxSymlinks [] p.segs = .reached loc m := by
  simp only [PathEnv.canonicalize, PathEnv.walkPath, PathEnv.start, hp, ↓reduceIte, Option.map_some]
  cases env.fs.walk maxSymlinks [] p.segs <;> simp

theorem resolveFrom_eq (hp : p.absolute = true) (k : Nat)
    (hfail : ∀ seg rest, p.segs.drop k = seg :: rest → ∀ loc m,
      env.fs.walk maxSymlinks [] (p.segs.take k ++ [seg]) ≠ .reached loc m) :
    ∃ pre post cur, p.segs = pre ++ post ∧ env.fs.LongestExisting pre post cur ∧
      resolveFrom env p k = appendTail cur post := by
  induction k with
  | zero =>
      have hc : env.canonicalize (p.take 0) = some [] :=
        (canonicalize_eq_some (p := p.take 0) hp).mpr ⟨_, FileSystem.walk_nil _ _⟩
      refine ⟨[], p.segs, [], rfl, ⟨⟨_, FileSystem.walk_nil _ _⟩, ?_⟩, by simp [resolveFrom, hp, hc]⟩
      intro seg rest hseg
      exact hfail seg rest (by simpa using hseg)
  | succ k ih =>
      cases hc : env.canonicalize (p.take (k + 1)) with
      | some out =>
          obtain ⟨m, hw⟩ := (canonicalize_eq_some (p := p.take (k + 1)) hp).mp hc
          exact ⟨p.segs.take (k + 1), p.segs.drop (k + 1), out, by simp, ⟨⟨m, hw⟩, hfail⟩, by simp [resolveFrom, hc]⟩
      | none =>
          simp only [resolveFrom, hc]
          apply ih fun seg rest hseg loc m hw => ?_
          have ht : p.segs.take (k + 1) = p.segs.take k ++ [seg] := by
            rw [List.take_add_one, ← List.head?_drop, hseg]; rfl
          have hsome : env.canonicalize (p.take (k + 1)) = some loc :=
            (canonicalize_eq_some (p := p.take (k + 1)) hp).mpr ⟨m, by simpa [PathBuf.take, ht] using hw⟩
          simp [hc] at hsome

theorem exists_longestExisting (env : PathEnv) (hp : p.absolute = true) :
    ∃ pre post cur, p.segs = pre ++ post ∧ env.fs.LongestExisting pre post cur ∧
      resolvePhysically env p = appendTail cur post :=
  resolveFrom_eq hp _ (by simp)

/-- `resolvePhysically` appends the tail to where the longest existing part leads. -/
theorem resolvePhysically_eq (hp : p.absolute = true) {pre post : List Seg} {cur : Loc}
    (hs : p.segs = pre ++ post) (h : env.fs.LongestExisting pre post cur) :
    resolvePhysically env p = appendTail cur post := by
  obtain ⟨pre', post', cur', hs', h', hr⟩ := exists_longestExisting env hp
  obtain ⟨rfl, rfl, rfl⟩ := h.unique h' (hs.symm.trans hs')
  exact hr

theorem pathCoveredBy_eq_true {target grant : PathBuf} (ht : target.absolute = true)
    (hg : grant.absolute = true) :
    pathCoveredBy env target grant = true ↔
      ∃ t a, resolvePhysically env target = some t ∧ resolvePhysically env grant = some a ∧ a <+: t := by
  simp only [pathCoveredBy, absolutize, ht, hg, ↓reduceIte]
  cases resolvePhysically env target <;> cases resolvePhysically env grant <;> simp

end ThreeVa.Permissions
