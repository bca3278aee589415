import Mathlib.Algebra.GroupWithZero.Nat
import Mathlib.Data.List.Sort
import ThreeVa.Lib.Utf8
import ThreeVa.Lib.Lines

/-!
# The digest of a tree

`tree_digest` of `pm/src/store.rs`: the bytes that are hashed for the directory of a package. What a link points to is
not among them.
-/

namespace ThreeVa.Store.TreeDigest
open Text

/-! ## Trees -/

/-- A name in UTF-8 without backslashes: neither `to_string_lossy` nor `replace` changes it. -/
structure FileName where
  text : Str
  ne : text ≠ []
  clean : ∀ c ∈ text, c ≠ '\x00' ∧ c ≠ '/' ∧ c ≠ '\\'

/-- What `read` returns; its length is a `usize`. -/
structure Contents where
  bytes : Bytes
  fits : bytes.length < 2 ^ 64

/-- The entries of a directory in the order of `read_dir`. -/
inductive Listing
  | nil
  | dir (name : FileName) (entries rest : Listing)
  | file (name : FileName) (data : Contents) (rest : Listing)
  | link (name : FileName) (rest : Listing)

inductive Item
  | dir
  | file (data : Contents)
  | link

abbrev Path := List Str

namespace Listing

def names : Listing → List Str
  | nil => []
  | dir n _ rest | file n _ rest | link n rest => n.text :: rest.names

/-- No two entries of a directory have one name. -/
def Distinct : Listing → Prop
  | nil => True
  | dir n entries rest => n.text ∉ rest.names ∧ entries.Distinct ∧ rest.Distinct
  | file n _ rest | link n rest => n.text ∉ rest.names ∧ rest.Distinct

/-- All there is, by path. -/
def items (above : Path) : Listing → List (Path × Item)
  | nil => []
  | dir n entries rest => (above ++ [n.text], .dir) :: (entries.items (above ++ [n.text]) ++ rest.items above)
  | file n data rest => (above ++ [n.text], .file data) :: rest.items above
  | link n rest => (above ++ [n.text], .link) :: rest.items above

end Listing

structure Tree where
  entries : Listing
  distinct : entries.Distinct

def Tree.items (t : Tree) : List (Path × Item) := t.entries.items []

/-- The same paths with the same kinds and contents. -/
def SameTree (t t' : Tree) : Prop := ∀ x, x ∈ t.items ↔ x ∈ t'.items

/-! ## The digest -/

@[ext]
structure Entry where
  rel : Str
  /-- The file to read, with what it holds. -/
  file : Option (Path × Contents)

def Entry.path (e : Entry) : Option Path := e.file.map Prod.fst

def relText (path : Path) : Str := (['/'].intercalate path).map fun c => if c = '\\' then '/' else c

def linkSuffix : Str := ['@', 'l', 'i', 'n', 'k']

def walk (above : Path) : Listing → List Entry
  | .nil => []
  | .dir n entries rest =>
      ⟨relText (above ++ [n.text]) ++ ['/'], none⟩ :: (walk (above ++ [n.text]) entries ++ walk above rest)
  | .file n data rest => ⟨relText (above ++ [n.text]), some (above ++ [n.text], data)⟩ :: walk above rest
  | .link n rest => ⟨relText (above ++ [n.text]) ++ linkSuffix, none⟩ :: walk above rest

/-- The order of pairs of a text and an optional path. -/
def Entry.cmp : Entry → Entry → Ordering := compareLex (compareOn Entry.rel) (compareOn Entry.path)

def sorted (t : Tree) : List Entry := (walk [] t.entries).insertionSort fun e e' => (e.cmp e').isLE = true

/-- `n.to_le_bytes()` of so many bytes. -/
def leBytes : Nat → Nat → Bytes
  | 0, _ => []
  | k + 1, n => .ofNat n :: leBytes k (n / 256)

/-- The length and the contents. -/
def Contents.update (data : Contents) : Bytes := leBytes 8 data.bytes.length ++ data.bytes

def Entry.update (e : Entry) : Bytes :=
  encodeUtf8 e.rel ++ 0 :: (match e.file with
    | some (_, data) => data.update
    | none => [])

def updates (es : List Entry) : Bytes := es.flatMap Entry.update

/-- The bytes that are hashed. -/
def treeBytes (t : Tree) : Bytes := updates (sorted t)

/-! ## Confusion -/

/-- The entries agree up to a link of the one tree at which the other has a file, named as the link is marked; and what
follows the link begins with the length and the contents of that file, and goes on as what follows the file. -/
def Confused (es es' : List Entry) : Prop :=
  ∃ (before after after' : List Entry) (link file : Path) (data : Contents),
    es = before ++ ⟨relText link ++ linkSuffix, none⟩ :: after ∧
      es' = before ++ ⟨relText file, some (file, data)⟩ :: after' ∧
      relText file = relText link ++ linkSuffix ∧ updates after = data.update ++ updates after'

/-! The bytes of a tree determine its entries, save where a link is taken for a file. -/

/-! ## Bytes -/

theorem append_cons_inj {c : UInt8} {a b s t : Bytes} (ha : c ∉ a) (hb : c ∉ b) (h : a ++ c :: s = b ++ c :: t) :
    a = b ∧ s = t := by
  have hsplit := splitOnce_append (b := s) ha
  rw [h, splitOnce_append hb, Option.some.injEq, Prod.mk.injEq] at hsplit
  exact ⟨hsplit.1.symm, hsplit.2.symm⟩

theorem zero_not_mem_encodeUtf8 {s : Str} (h : '\x00' ∉ s) : 0 ∉ encodeUtf8 s := by
  intro hzero
  obtain ⟨c, hc, hbyte⟩ := List.mem_flatMap.mp hzero
  have hnat : c.toNat = 0 := toNat_of_mem_encodeChar (by decide) hbyte
  obtain rfl : c = '\x00' := Char.toNat_inj.mp hnat
  exact h hc

theorem length_leBytes (k n : Nat) : (leBytes k n).length = k := by
  induction k generalizing n with
  | zero => rfl
  | succ k ih => rw [leBytes, List.length_cons, ih]

theorem leBytes_inj {k n m : Nat} (hn : n < 256 ^ k) (hm : m < 256 ^ k) (h : leBytes k n = leBytes k m) : n = m := by
  induction k generalizing n m with
  | zero => omega
  | succ k ih =>
      simp only [leBytes, List.cons.injEq] at h
      have hlow := congrArg UInt8.toNat h.1
      rw [UInt8.toNat_ofNat', UInt8.toNat_ofNat'] at hlow
      rw [Nat.pow_succ] at hn hm
      have hhigh := ih (Nat.div_lt_of_lt_mul (by omega)) (Nat.div_lt_of_lt_mul (by omega)) h.2
      omega

/-- The length tells where the contents end. -/
theorem Contents.update_append_inj {data data' : Contents} {s t : Bytes}
    (h : data.update ++ s = data'.update ++ t) : data = data' ∧ s = t := by
  unfold update at h
  rw [List.append_assoc, List.append_assoc] at h
  obtain ⟨hlength, hrest⟩ := List.append_inj h (by rw [length_leBytes, length_leBytes])
  obtain ⟨hbytes, rfl⟩ := List.append_inj hrest (leBytes_inj data.fits data'.fits hlength)
  cases data
  cases data'
  cases hbytes
  exact ⟨rfl, rfl⟩

/-! ## Paths -/

/-- A path as `walk` builds it. -/
structure Named (path : Path) : Prop where
  ne : path ≠ []
  names : ∀ n ∈ path, n ≠ [] ∧ ∀ c ∈ n, c ≠ '\x00' ∧ c ≠ '/' ∧ c ≠ '\\'

namespace Listing

/-- Everything lies below an entry of the listing. -/
theorem mem_items {l : Listing} {above : Path} {x : Path × Item} (hx : x ∈ l.items above) :
    ∃ n ∈ l.names, ∃ below, x.1 = above ++ n :: below ∧ Named (n :: below) := by
  induction l generalizing above with
  | nil => cases hx
  | dir n entries rest ih ihRest =>
      simp only [items, List.mem_cons, List.mem_append] at hx
      rcases hx with rfl | hx | hx
      · exact ⟨n.text, by simp [names], [], rfl, by simp, by simpa using ⟨n.ne, n.clean⟩⟩
      · obtain ⟨m, -, below, heq, -, hnamed⟩ := ih hx
        refine ⟨n.text, by simp [names], m :: below, by simp [heq], by simp, ?_⟩
        rw [List.forall_mem_cons]
        exact ⟨⟨n.ne, n.clean⟩, hnamed⟩
      · obtain ⟨m, hm, h⟩ := ihRest hx
        exact ⟨m, by simp [names, hm], h⟩
  | file n _ rest ih | link n rest ih =>
      simp only [items, List.mem_cons] at hx
      rcases hx with rfl | hx
      · exact ⟨n.text, by simp [names], [], rfl, by simp, by simpa using ⟨n.ne, n.clean⟩⟩
      · obtain ⟨m, hm, h⟩ := ih hx
        exact ⟨m, by simp [names, hm], h⟩

theorem path_not_mem {l : Listing} {above below : Path} {n : Str} (hn : n ∉ l.names) :
    above ++ n :: below ∉ (l.items above).map Prod.fst := by
  intro h
  obtain ⟨x, hx, heq⟩ := List.mem_map.mp h
  obtain ⟨m, hm, below', heq', -⟩ := mem_items hx
  rw [heq', List.append_cancel_left_eq, List.cons.injEq] at heq
  exact hn (heq.1 ▸ hm)

theorem Distinct.nodup {l : Listing} (h : l.Distinct) (above : Path) : ((l.items above).map Prod.fst).Nodup := by
  induction l generalizing above with
  | nil => exact List.nodup_nil
  | dir n entries rest ih ihRest =>
      obtain ⟨hn, hentries, hrest⟩ := h
      simp only [items, List.map_cons, List.map_append, List.nodup_cons, List.mem_append, not_or, List.nodup_append]
      refine ⟨⟨fun hmem => ?_, path_not_mem hn⟩, ih hentries _, ihRest hrest _, fun p hp q hq hpq => ?_⟩
      · obtain ⟨x, hx, heq⟩ := List.mem_map.mp hmem
        obtain ⟨m, -, below, heq', -⟩ := mem_items hx
        rw [heq'] at heq
        simp at heq
      · obtain ⟨x, hx, rfl⟩ := List.mem_map.mp hp
        obtain ⟨m, -, below, heq, -⟩ := mem_items hx
        rw [← hpq, heq, List.append_assoc] at hq
        exact path_not_mem hn hq
  | file n _ rest ih | link n rest ih =>
      exact List.nodup_cons.mpr ⟨path_not_mem h.1, ih h.2 above⟩

end Listing

theorem Tree.named {t : Tree} {x : Path × Item} (hx : x ∈ t.items) : Named x.1 := by
  obtain ⟨n, -, below, heq, hnamed⟩ := Listing.mem_items hx
  rw [List.nil_append] at heq
  exact heq ▸ hnamed

theorem Named.relText_eq {path : Path} (h : Named path) : relText path = ['/'].intercalate path := by
  have hmap : ∀ c ∈ ['/'].intercalate path, (if c = '\\' then '/' else c) = c := by
    intro c hc
    rw [if_neg]
    rcases mem_intercalate hc with rfl | ⟨n, hn, hc⟩
    · decide
    · exact ((h.names n hn).2 c hc).2.2
  rw [relText, List.map_congr_left hmap, List.map_id']

theorem Named.splitOn_relText {path : Path} (h : Named path) : (relText path).splitOn '/' = path := by
  rw [h.relText_eq, List.splitOn_intercalate '/' (fun n hn hc => ((h.names n hn).2 _ hc).2.1 rfl) h.ne]

theorem Named.relText_inj {p q : Path} (hp : Named p) (hq : Named q) (h : relText p = relText q) : p = q := by
  rw [← hp.splitOn_relText, ← hq.splitOn_relText, h]

/-- No name ends in a slash. -/
theorem Named.relText_ne_slash {p : Path} (hp : Named p) (s : Str) : relText p ≠ s ++ ['/'] := by
  intro h
  have hsplit := hp.splitOn_relText
  rw [h, List.splitOn_append_cons_self] at hsplit
  exact (hp.names [] (by rw [← hsplit]; simp)).1 rfl

theorem Named.zero_not_mem {path : Path} (h : Named path) : '\x00' ∉ relText path := by
  rw [h.relText_eq]
  intro hc
  rcases mem_intercalate hc with hc | ⟨n, hn, hc⟩
  · exact absurd hc (by decide)
  · exact ((h.names n hn).2 _ hc).1 rfl

/-! ## Entries -/

/-- The entry that `walk` makes of what is at a path. -/
def entryOf (x : Path × Item) : Entry :=
  match x.2 with
  | .dir => ⟨relText x.1 ++ ['/'], none⟩
  | .file data => ⟨relText x.1, some (x.1, data)⟩
  | .link => ⟨relText x.1 ++ linkSuffix, none⟩

theorem walk_eq (above : Path) (l : Listing) : walk above l = (l.items above).map entryOf := by
  induction l generalizing above with
  | nil => rfl
  | dir n entries rest ih ihRest => simp [walk, Listing.items, ih, ihRest, entryOf]
  | file n data rest ih | link n rest ih => simp [walk, Listing.items, ih, entryOf]

theorem mem_sorted {t : Tree} {e : Entry} : e ∈ sorted t ↔ ∃ x ∈ t.items, entryOf x = e := by
  rw [sorted, List.mem_insertionSort, walk_eq, List.mem_map, Tree.items]

theorem append_slash_ne_link (s t : Str) : s ++ ['/'] ≠ t ++ linkSuffix := by
  intro h
  have hlast := congrArg List.getLast? h
  simp [linkSuffix] at hlast

theorem entryOf_inj {x y : Path × Item} (hx : Named x.1) (hy : Named y.1) (h : entryOf x = entryOf y) : x = y := by
  obtain ⟨p, i⟩ := x
  obtain ⟨q, j⟩ := y
  unfold entryOf at h
  cases i <;> cases j <;> simp only [Entry.mk.injEq, reduceCtorEq, and_false, and_true, Option.some.injEq,
    List.append_cancel_right_eq, Prod.mk.injEq] at h
  case dir.dir =>
    obtain rfl : p = q := hx.relText_inj hy h
    rfl
  case dir.link => exact absurd h (append_slash_ne_link _ _)
  case file.file => rw [h.2.1, h.2.2]
  case link.dir => exact absurd h.symm (append_slash_ne_link _ _)
  case link.link =>
    obtain rfl : p = q := hx.relText_inj hy h
    rfl

/-! ## The order -/

instance : Std.TransCmp Entry.cmp := by
  unfold Entry.cmp
  infer_instance

theorem sorted_pairwise (t : Tree) : (sorted t).Pairwise fun e e' => (e.cmp e').isLE = true :=
  have : Std.Total fun e e' : Entry => (e.cmp e').isLE = true := ⟨fun e e' => by
    have hswap : e'.cmp e = (e.cmp e').swap := Std.OrientedCmp.eq_swap
    rw [hswap]
    cases e.cmp e' <;> decide⟩
  have : IsTrans Entry fun e e' => (e.cmp e').isLE = true := ⟨fun _ _ _ => Std.TransCmp.isLE_trans⟩
  List.pairwise_insertionSort _ _

theorem eq_of_cmp {t : Tree} {e e' : Entry} (he : e ∈ sorted t) (he' : e' ∈ sorted t) (h : e.cmp e' = .eq) :
    e = e' := by
  obtain ⟨x, hx, rfl⟩ := mem_sorted.mp he
  obtain ⟨y, hy, rfl⟩ := mem_sorted.mp he'
  rw [Entry.cmp, compareLex_eq_eq, compareOn, compareOn, Std.LawfulEqCmp.compare_eq_iff_eq,
    Std.LawfulEqCmp.compare_eq_iff_eq] at h
  cases hpath : (entryOf x).path with
  | none =>
      have hfile : ∀ z : Path × Item, (entryOf z).path = none → (entryOf z).file = none :=
        fun z hz => Option.map_eq_none_iff.mp hz
      exact Entry.ext h.1 ((hfile x hpath).trans (hfile y (h.2 ▸ hpath)).symm)
  | some p =>
      have hfirst : ∀ z : Path × Item, (entryOf z).path = some p → z.1 = p := by
        rintro ⟨q, i⟩ hz
        cases i with
        | file data => simpa [entryOf, Entry.path] using hz
        | dir | link => simp [entryOf, Entry.path] at hz
      have hsame : x.1 = y.1 := (hfirst x hpath).trans (hfirst y (h.2 ▸ hpath)).symm
      rw [List.inj_on_of_nodup_map (t.distinct.nodup []) hx hy hsame]

/-- The sorted entries are those of the tree, in whatever order the directories are read. -/
theorem sorted_eq_iff {t t' : Tree} : sorted t = sorted t' ↔ SameTree t t' := by
  constructor
  · intro h x
    have hsub : ∀ {t t' : Tree}, sorted t = sorted t' → x ∈ t.items → x ∈ t'.items := by
      intro t t' h hx
      obtain ⟨y, hy, heq⟩ := mem_sorted.mp (h ▸ mem_sorted.mpr ⟨x, hx, rfl⟩)
      exact entryOf_inj (Tree.named hy) (Tree.named hx) heq ▸ hy
    exact ⟨hsub h, hsub h.symm⟩
  · intro h
    have hnodup : ∀ t : Tree, t.items.Nodup := fun t => (t.distinct.nodup []).of_map
    have hperm : t.items.Perm t'.items := (List.perm_ext_iff_of_nodup (hnodup t) (hnodup t')).mpr h
    refine List.Perm.eq_of_pairwise (fun e e' he he' hle hge => ?_) (sorted_pairwise t) (sorted_pairwise t') ?_
    · apply eq_of_cmp he
      · obtain ⟨x, hx, heq⟩ := mem_sorted.mp he'
        exact mem_sorted.mpr ⟨x, (h x).mpr hx, heq⟩
      · have hswap : e'.cmp e = (e.cmp e').swap := Std.OrientedCmp.eq_swap
        rw [hswap] at hge
        cases hcmp : e.cmp e' <;> simp_all
    · unfold sorted
      refine (List.perm_insertionSort _ _).trans (.trans ?_ (List.perm_insertionSort _ _).symm)
      rw [walk_eq, walk_eq]
      exact hperm.map entryOf

/-! ## Reading the bytes back -/

theorem update_ne_nil (e : Entry) : e.update ≠ [] := by simp [Entry.update]

theorem entryOf_rel_zero {x : Path × Item} (hx : Named x.1) : '\x00' ∉ (entryOf x).rel := by
  obtain ⟨p, i⟩ := x
  have hp := hx.zero_not_mem
  cases i <;> simpa [entryOf, linkSuffix] using hp

/-- A link, and a file named as it is marked. -/
def LinkLike (e e' : Entry) (data : Contents) : Prop :=
  ∃ link file, e = ⟨relText link ++ linkSuffix, none⟩ ∧ e' = ⟨relText file, some (file, data)⟩ ∧
    relText file = relText link ++ linkSuffix

/-- Two entries with one text are equal, or one is a link and the other a file. -/
theorem eq_or_linkLike {x y : Path × Item} (hx : Named x.1) (hy : Named y.1)
    (h : (entryOf x).rel = (entryOf y).rel) : (entryOf x).file = none ∧ (entryOf y).file = none ∨
      (∃ p data data', (entryOf x).file = some (p, data) ∧ (entryOf y).file = some (p, data')) ∨
      (∃ data, LinkLike (entryOf x) (entryOf y) data) ∨ ∃ data, LinkLike (entryOf y) (entryOf x) data := by
  obtain ⟨p, i⟩ := x
  obtain ⟨q, j⟩ := y
  cases i with
  | dir =>
      cases j with
      | file data => exact absurd h.symm (hy.relText_ne_slash _)
      | dir | link => exact .inl ⟨rfl, rfl⟩
  | file data =>
      cases j with
      | dir => exact absurd h (hx.relText_ne_slash _)
      | file data' =>
          obtain rfl : p = q := hx.relText_inj hy h
          exact .inr (.inl ⟨p, data, data', rfl, rfl⟩)
      | link => exact .inr (.inr (.inr ⟨data, q, p, rfl, rfl, h⟩))
  | link =>
      cases j with
      | file data => exact .inr (.inr (.inl ⟨data, p, q, rfl, rfl, h.symm⟩))
      | dir | link => exact .inl ⟨rfl, rfl⟩

theorem Confused.cons {es es' : List Entry} (e : Entry) : Confused es es' → Confused (e :: es) (e :: es')
  | ⟨before, after, after', link, file, data, hes, hes', h⟩ =>
      ⟨e :: before, after, after', link, file, data, by rw [hes]; rfl, by rw [hes']; rfl, h⟩

theorem eq_or_confused {es es' : List Entry} (hes : ∀ e ∈ es, ∃ x, Named x.1 ∧ entryOf x = e)
    (hes' : ∀ e ∈ es', ∃ x, Named x.1 ∧ entryOf x = e) (h : updates es = updates es') :
    es = es' ∨ Confused es es' ∨ Confused es' es := by
  induction es generalizing es' with
  | nil =>
      cases es' with
      | nil => exact .inl rfl
      | cons e' es' => simp [updates, update_ne_nil] at h
  | cons e es ih =>
      cases es' with
      | nil => simp [updates, update_ne_nil] at h
      | cons e' es' =>
          rw [List.forall_mem_cons] at hes hes'
          obtain ⟨⟨x, hx, rfl⟩, hes⟩ := hes
          obtain ⟨⟨y, hy, rfl⟩, hes'⟩ := hes'
          simp only [updates, List.flatMap_cons, Entry.update, List.append_assoc, List.cons_append] at h
          obtain ⟨hrel, hrest⟩ := append_cons_inj (zero_not_mem_encodeUtf8 (entryOf_rel_zero hx))
            (zero_not_mem_encodeUtf8 (entryOf_rel_zero hy)) h
          have hsame := encodeUtf8_inj hrel
          have hnext (heq : entryOf x = entryOf y) (hrest : updates es = updates es') :
              entryOf x :: es = entryOf y :: es' ∨ Confused (entryOf x :: es) (entryOf y :: es') ∨
                Confused (entryOf y :: es') (entryOf x :: es) := by
            rw [heq]
            exact (ih hes hes' hrest).imp (congrArg _) (Or.imp (Confused.cons _) (Confused.cons _))
          rcases eq_or_linkLike hx hy hsame with ⟨hfile, hfile'⟩ | ⟨p, data, data', hfile, hfile'⟩ |
            ⟨data, link, file, hlink, hfile, hmarked⟩ | ⟨data, link, file, hlink, hfile, hmarked⟩
          · rw [hfile, hfile'] at hrest
            exact hnext (Entry.ext hsame (hfile.trans hfile'.symm)) hrest
          · rw [hfile, hfile'] at hrest
            obtain ⟨hdata, hafter⟩ := Contents.update_append_inj hrest
            exact hnext (Entry.ext hsame (by rw [hfile, hfile', hdata])) hafter
          · rw [hlink, hfile] at hrest ⊢
            exact .inr (.inl ⟨[], es, es', link, file, data, rfl, rfl, hmarked, hrest⟩)
          · rw [hlink, hfile] at hrest ⊢
            exact .inr (.inr ⟨[], es', es, link, file, data, rfl, rfl, hmarked, hrest.symm⟩)

theorem sorted_named {t : Tree} : ∀ e ∈ sorted t, ∃ x, Named x.1 ∧ entryOf x = e := fun e he => by
  obtain ⟨x, hx, heq⟩ := mem_sorted.mp he
  exact ⟨x, Tree.named hx, heq⟩

/-- Confused entries are hashed alike and differ. -/
theorem Confused.updates_eq {es es' : List Entry} (h : Confused es es') : updates es = updates es' ∧ es ≠ es' := by
  obtain ⟨before, after, after', link, file, data, rfl, rfl, hmarked, hafter⟩ := h
  constructor
  · simp only [updates, List.flatMap_append, List.flatMap_cons, Entry.update] at hafter ⊢
    rw [hafter, hmarked]
    simp
  · simp

theorem Confused.items {t t' : Tree} (h : Confused (sorted t) (sorted t')) :
    ∃ link file data, (link, .link) ∈ t.items ∧ (file, .file data) ∈ t'.items ∧
      relText file = relText link ++ linkSuffix := by
  obtain ⟨before, after, after', link, file, data, hlink, hfile, hmarked, -⟩ := h
  obtain ⟨⟨p, i⟩, hp, hentry⟩ := mem_sorted.mp (hlink ▸ List.mem_append_right before List.mem_cons_self)
  obtain ⟨⟨q, j⟩, hq, hentry'⟩ := mem_sorted.mp (hfile ▸ List.mem_append_right before List.mem_cons_self)
  cases i <;> simp only [entryOf, Entry.mk.injEq, reduceCtorEq, and_false, and_true,
    List.append_cancel_right_eq] at hentry
  case dir => exact absurd hentry (append_slash_ne_link _ _)
  case link =>
    cases j <;> simp only [entryOf, Entry.mk.injEq, reduceCtorEq, and_false, Option.some.injEq, Prod.mk.injEq] at hentry'
    case file => exact ⟨p, q, _, hp, hq, by rw [hentry'.1, hmarked, hentry]⟩

end ThreeVa.Store.TreeDigest
