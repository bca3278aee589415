import ThreeVa.Lib.Merkle
import ThreeVa.Provenance.Rekor

/-!
# Inclusion proofs and trees

What RFC 6962 says about the leaves of a tree, its root and the path of a leaf, beside `verify_inclusion` of
`pm/src/provenance.rs`.
-/

namespace ThreeVa.Provenance
open Text

variable {K : Type} (crates : Crates K)

/-! ## Trees -/

abbrev MerkleInput := Merkle.Input Bytes Bytes

/-- The text that is hashed. -/
def inputBytes : MerkleInput → Bytes
  | .empty => []
  | .leaf body => 0x00 :: body
  | .node left right => 0x01 :: left ++ right

def merkleHash (input : MerkleInput) : Bytes := crates.sha256 (inputBytes input)

def treeOf (leaves : List Bytes) : Merkle.Tree Bytes := .ofList leaves

/-- The Merkle tree hash of a list of leaves. -/
def treeHash (leaves : List Bytes) : Bytes := (treeOf leaves).root (merkleHash crates)

/-- The audit path of a leaf, from the leaf to the root. -/
def auditPath (leaves : List Bytes) (i : Nat) : List Bytes :=
  ((treeOf leaves).siblings (merkleHash crates) (Merkle.route leaves.length i)).reverse

/-! ## Proofs -/

/-- The turns that `verify_inclusion` takes, from the leaf to the root. -/
def turnsUp (index size : Nat) : List Bool :=
  (List.range (innerProofSize index size)).map index.testBit ++
    List.replicate (countOnes (index >>> (innerProofSize index size % 64))) true

/-- The same turns with the hashes of the proof, from the root to the leaf. -/
def proofPath (index size : Nat) (hashes : List Bytes) : List (Bool × Bytes) :=
  (turnsUp index size).reverse.zip hashes.reverse

/-- What a proof says about a leaf: its index, the size of the tree, and the hashes. -/
structure Says (proof : List (Str × Json)) (index size : Nat) (hashes : List Bytes) : Prop where
  index : ∃ v, indexMap proof "logIndex" = .ok v ∧ jsonU64 v "inclusionProof logIndex" = .ok index
  size : ∃ v, indexMap proof "treeSize" = .ok v ∧ jsonU64 v "inclusionProof treeSize" = .ok size
  hashes : ∃ v items, indexMap proof "hashes" = .ok v ∧ v.asArray = some items ∧
    items.mapM (proofHash crates) = .ok hashes

/-- No two different texts of these have the same digest. -/
def CollisionFree (xs ys : List MerkleInput) : Prop :=
  ∀ x ∈ xs, ∀ y ∈ ys, crates.sha256 (inputBytes x) = crates.sha256 (inputBytes y) → inputBytes x = inputBytes y

/-- What is hashed for the tree and what is hashed for a proof. -/
def ProofCollisionFree (leaves : List Bytes) (leafHash : Bytes) (index size : Nat) (hashes : List Bytes) : Prop :=
  CollisionFree crates ((treeOf leaves).inputs (merkleHash crates))
    (Merkle.climbInputs (merkleHash crates) leafHash (proofPath index size hashes))

/-- Proofs for leaf `i` are checked as RFC 6962 has it, and no shift goes over the width of the word. -/
structure VerifiesRfc6962 (leaves : List Bytes) (i : Nat) (body : Bytes) : Prop where
  shifts : ∀ amount ∈ innerProofSize i leaves.length :: List.range (innerProofSize i leaves.length), amount < 64
  complete : ∀ proof, Says crates proof i leaves.length (auditPath crates leaves i) →
    verifyInclusion crates proof (merkleLeafHash crates body) (treeHash crates leaves) = .ok ()
  sound : ∀ proof leafHash hashes, Says crates proof i leaves.length hashes → leafHash.length = 32 →
    ProofCollisionFree crates leaves leafHash i leaves.length hashes →
    verifyInclusion crates proof leafHash (treeHash crates leaves) = .ok () →
    leafHash = merkleLeafHash crates body ∧ hashes = auditPath crates leaves i

/-! ## Tree heads -/

/-- The size and the root hash that are written in a note. -/
def headOf (note : Str) : Option (Nat × Bytes) := do
  let size ← (note.splitOn '\n')[1]?.bind (parseUnsigned 10 usizeMax)
  let root ← (note.splitOn '\n')[2]?.bind decodeBase64
  return (size, root)

/-- The log signs the heads of its tree, of any size that it has had, and no other note. -/
def Unforgeable (log : List Bytes) : Prop :=
  ∀ key note sig, rekorPublicKey crates = .ok key →
    verifyEcdsa crates key .sha256 (encodeUtf8 (note ++ ['\n'])) sig = true →
    ∃ n ≤ log.length, headOf (note ++ ['\n']) = some (n, treeHash crates (log.take n))

/-- What an entry with an inclusion proof says: its body, the signed note, and the path from a leaf. -/
structure EntryProof where
  body : Bytes
  note : Str
  index : Nat
  size : Nat
  hashes : List Bytes

def entryProof (entry : Json) : Option EntryProof := do
  let proof ← (entry.field "inclusionProof").asObject
  let body ← (entry.field "canonicalizedBody").asStr.bind decodeBase64
  let envelope ← ((← Json.get? proof "checkpoint".toList).field "envelope").asStr
  let (note, _) ← splitOnceStr "\n\n".toList envelope
  let index ← (jsonU64 (← Json.get? proof "logIndex".toList) "inclusionProof logIndex").toOption
  let size ← (jsonU64 (← Json.get? proof "treeSize".toList) "inclusionProof treeSize").toOption
  let items ← (← Json.get? proof "hashes".toList).asArray
  let hashes ← (items.mapM (proofHash crates)).toOption
  return { body, note := note ++ ['\n'], index, size, hashes }

namespace EntryProof

variable (p : EntryProof) (log : List Bytes)

/-- The signed tree head, of the size and root in the note, has the body as the leaf of the index. -/
def InSignedHead : Prop :=
  ∃ n ≤ log.length, headOf p.note = some (n, treeHash crates (log.take n)) ∧ (log.take n)[p.index]? = some p.body

/-- In the tree of the size in the note, the turns of the proof lead to the leaf of the index, or to another with the same
content. -/
def LeadsToIndex : Prop :=
  ∀ n root, headOf p.note = some (n, root) →
    ∃ j, Merkle.leafAt n (turnsUp p.index p.size).reverse = some j ∧ (log.take n)[j]? = (log.take n)[p.index]?

/-- What is hashed for the tree of the note and what is hashed for the proof. -/
def NoCollisions : Prop :=
  ∀ n root, headOf p.note = some (n, root) →
    CollisionFree crates ((treeOf (log.take n)).inputs (merkleHash crates))
      (.leaf p.body :: Merkle.climbInputs (merkleHash crates) (merkleLeafHash crates p.body)
        (proofPath p.index p.size p.hashes))

end EntryProof

end ThreeVa.Provenance

/-! ## Lemmas about inclusion proofs -/

namespace ThreeVa.Provenance
open Text Merkle

variable {K : Type} {crates : Crates K}

/-! ## Bits -/

theorem bitLength_eq (x : Nat) : bitLength x = x.size := by
  unfold bitLength
  split
  · rename_i h
    rw [h, Nat.size_zero]
  · rename_i h
    exact Nat.le_antisymm (Nat.lt_size.mpr (Nat.log2_self_le h)) (Nat.size_le.mpr Nat.lt_log2_self)

theorem innerProofSize_eq (index size : Nat) : innerProofSize index size = innerSize size index := bitLength_eq _

/-- The shift is in range unless the index lies below the top bit and the last leaf does not. -/
theorem innerProofSize_lt_iff {index size : Nat} (hindex : index < size) (hsize : size < 2 ^ 64) :
    innerProofSize index size < 64 ↔ size ≤ 2 ^ 63 ∨ 2 ^ 63 ≤ index := by
  rw [innerProofSize_eq, innerSize, Nat.lt_iff_le_pred (by omega), Nat.size_le]
  change index ^^^ (size - 1) < 2 ^ 63 ↔ _
  constructor
  · intro h
    by_contra hout
    have hlow : index.testBit 63 = false := Nat.testBit_lt_two_pow (by omega)
    have hhigh : (size - 1).testBit 63 = true := by
      have heq : size - 1 = 2 ^ 63 + (size - 1 - 2 ^ 63) := by omega
      rw [heq, testBit_two_pow_add (by omega)]
      rfl
    have hbit : (index ^^^ (size - 1)).testBit 63 = true := by rw [Nat.testBit_xor, hlow, hhigh]; rfl
    rw [Nat.testBit_lt_two_pow h] at hbit
    cases hbit
  · rintro (h | h)
    · exact Nat.xor_lt_two_pow (by omega) (by omega)
    · -- both have the top bit
      have hi : index = 2 ^ 63 + (index - 2 ^ 63) := by omega
      have hs : size - 1 = 2 ^ 63 + (size - 1 - 2 ^ 63) := by omega
      refine Nat.lt_pow_two_of_testBit _ fun j hj => ?_
      rw [hi, hs, Nat.testBit_xor, testBit_two_pow_add (by omega), testBit_two_pow_add (by omega)]
      have hlow : (index - 2 ^ 63).testBit j = false :=
        Nat.testBit_lt_two_pow (Nat.lt_of_lt_of_le (by omega) (Nat.pow_le_pow_right (by omega) hj))
      have hlow' : (size - 1 - 2 ^ 63).testBit j = false :=
        Nat.testBit_lt_two_pow (Nat.lt_of_lt_of_le (by omega) (Nat.pow_le_pow_right (by omega) hj))
      rw [hlow, hlow']
      simp

theorem shiftRight_eq_ok {x amount y : Nat} : shiftRight crates x amount = .ok y ↔
    (crates.overflowChecks = true → amount < 64) ∧ y = x >>> (amount % 64) := by
  unfold shiftRight
  split
  · rename_i h
    simp only [Bool.and_eq_true, decide_eq_true_eq] at h
    exact iff_of_false (fun heq => by cases heq) fun hboth => absurd (hboth.1 h.1) (by omega)
  · rename_i h
    simp only [Bool.and_eq_true, decide_eq_true_eq, not_and, Nat.not_le] at h
    simp only [Except.ok.injEq]
    exact ⟨fun heq => ⟨h, heq.symm⟩, fun hboth => hboth.2.symm⟩

/-- With the shift in range, the turns are those to the leaf. -/
theorem turnsUp_eq {index size : Nat} (hindex : index < size) (hsize : size < 2 ^ 64)
    (hshift : innerProofSize index size < 64) : (turnsUp index size).reverse = route size index := by
  rw [List.reverse_eq_iff, route_bits hindex (Nat.le_of_lt hsize), turnsUp, Nat.mod_eq_of_lt hshift, innerProofSize_eq]
  rfl

/-! ## Climbing -/

theorem chainInner_eq (seed : Bytes) (hashes : List Bytes) (index : Nat) :
    chainInner crates seed hashes index =
      (((List.range hashes.length).map index.testBit).zip hashes).foldl
        (fun seed x => if x.1 then merkleHash crates (.node x.2 seed) else merkleHash crates (.node seed x.2)) seed := by
  have hzip : ((List.range hashes.length).map index.testBit).zip hashes =
      hashes.zipIdx.map fun x => (index.testBit x.2, x.1) := by
    apply List.ext_getElem
    · simp
    · intro j h₁ h₂
      simp
  rw [hzip, List.foldl_map]
  rfl

theorem chainBorderRight_eq (seed : Bytes) (hashes : List Bytes) :
    chainBorderRight crates seed hashes =
      ((List.replicate hashes.length true).zip hashes).foldl
        (fun seed x => if x.1 then merkleHash crates (.node x.2 seed) else merkleHash crates (.node seed x.2)) seed := by
  unfold chainBorderRight
  induction hashes generalizing seed with
  | nil => rfl
  | cons h hashes ih =>
      rw [List.foldl_cons, ih, List.length_cons, List.replicate_succ, List.zip_cons_cons, List.foldl_cons]
      rfl

theorem length_turnsUp (index size : Nat) : (turnsUp index size).length =
    innerProofSize index size + countOnes (index >>> (innerProofSize index size % 64)) := by
  simp [turnsUp]

/-- The two parts of the proof are one path. -/
theorem chain_eq_climb {index size : Nat} {hashes : List Bytes} (seed : Bytes)
    (hlength : hashes.length = (turnsUp index size).length) :
    chainBorderRight crates (chainInner crates seed (hashes.take (innerProofSize index size)) index)
      (hashes.drop (innerProofSize index size)) = Merkle.climb (merkleHash crates) seed (proofPath index size hashes) := by
  have hreverse : proofPath index size hashes = ((turnsUp index size).zip hashes).reverse := by
    unfold proofPath List.zip
    rw [List.reverse_zipWith hlength.symm]
  have hlength' := hlength
  rw [length_turnsUp] at hlength'
  have htake : (hashes.take (innerProofSize index size)).length = innerProofSize index size := by
    rw [List.length_take]
    omega
  have hdrop : (hashes.drop (innerProofSize index size)).length =
      countOnes (index >>> (innerProofSize index size % 64)) := by
    rw [List.length_drop]
    omega
  rw [hreverse, climb_reverse, chainBorderRight_eq, chainInner_eq, ← List.foldl_append, htake, hdrop]
  congr 1
  rw [← List.zip_append (by simp [htake]), List.take_append_drop]
  rfl

/-! ## Verifying -/

/-- What a proof must pass. -/
theorem verifyInclusion_eq_ok {proof : List (Str × Json)} {index size : Nat} {hashes : List Bytes}
    {leafHash rootHash : Bytes} (hread : Says crates proof index size hashes) :
    verifyInclusion crates proof leafHash rootHash = .ok () ↔
      index < size ∧ (crates.overflowChecks = true → innerProofSize index size < 64) ∧
        hashes.length = (turnsUp index size).length ∧
        Merkle.climb (merkleHash crates) leafHash (proofPath index size hashes) = rootHash := by
  obtain ⟨⟨v, hv, hindex⟩, ⟨w, hw, hsize⟩, u, items, hu, hitems, hhashes⟩ := hread
  unfold verifyInclusion
  simp only [hv, hindex, hw, hsize, hu, hitems, hhashes, ok_bind, okOr_some, bind_eq_ok, ensure_eq_ok,
    shiftRight_eq_ok, Bool.and_eq_true, decide_eq_true_eq]
  constructor
  · rintro ⟨-, ⟨-, hlt⟩, _, ⟨hshift, rfl⟩, -, hlength, hroot⟩
    rw [← length_turnsUp] at hlength
    exact ⟨hlt, hshift, hlength, (chain_eq_climb leafHash hlength).symm.trans hroot⟩
  · rintro ⟨hlt, hshift, hlength, hroot⟩
    refine ⟨(), ⟨by omega, hlt⟩, _, ⟨hshift, rfl⟩, (), hlength.trans (length_turnsUp _ _), ?_⟩
    exact (chain_eq_climb leafHash hlength).trans hroot

/-! ## Collisions -/

/-- The hashes in the input have the length of a digest. -/
def Sized : MerkleInput → Prop
  | .node left right => left.length = 32 ∧ right.length = 32
  | _ => True

theorem inputBytes_inj {x y : MerkleInput} (hx : Sized x) (hy : Sized y) (h : inputBytes x = inputBytes y) : x = y := by
  cases x with
  | empty => cases y <;> first | rfl | cases h
  | leaf body =>
      cases y with
      | leaf body' => exact congrArg Input.leaf (List.cons.inj h).2
      | empty => cases h
      | node left right => exact absurd (List.cons.inj h).1 (by decide)
  | node left right =>
      cases y with
      | node left' right' =>
          obtain ⟨rfl, rfl⟩ := List.append_inj (List.cons.inj h).2 (hx.1.trans hy.1.symm)
          rfl
      | empty => cases h
      | leaf body => exact absurd (List.cons.inj h).1 (by decide)

section Sized

variable (hdigest : ∀ b, (crates.sha256 b).length = 32)
include hdigest

theorem length_root (t : Merkle.Tree Bytes) : (t.root (merkleHash crates)).length = 32 := by
  cases t <;> exact hdigest _

theorem sized_inputs {t : Merkle.Tree Bytes} {x : MerkleInput} (hx : x ∈ t.inputs (merkleHash crates)) : Sized x := by
  induction t with
  | empty => rw [List.mem_singleton.mp hx]; trivial
  | leaf value => rw [List.mem_singleton.mp hx]; trivial
  | node left right ihl ihr =>
      rcases List.mem_cons.mp hx with rfl | hx
      · exact ⟨length_root hdigest left, length_root hdigest right⟩
      · exact (List.mem_append.mp hx).elim ihl ihr

theorem length_climb {seed : Bytes} (hseed : seed.length = 32) (path : List (Bool × Bytes)) :
    (Merkle.climb (merkleHash crates) seed path).length = 32 := by
  cases path with
  | nil => exact hseed
  | cons x path =>
      obtain ⟨turn, h⟩ := x
      cases turn <;> exact hdigest _

theorem sized_climbInputs {seed : Bytes} (hseed : seed.length = 32) {path : List (Bool × Bytes)}
    (hpath : ∀ x ∈ path, x.2.length = 32) {y : MerkleInput}
    (hy : y ∈ climbInputs (merkleHash crates) seed path) : Sized y := by
  induction path with
  | nil => cases hy
  | cons x path ih =>
      obtain ⟨turn, h⟩ := x
      have hh := hpath _ List.mem_cons_self
      rcases List.mem_cons.mp hy with rfl | hy
      · cases turn with
        | true => exact ⟨hh, length_climb hdigest hseed path⟩
        | false => exact ⟨length_climb hdigest hseed path, hh⟩
      · exact ih (fun x hx => hpath x (List.mem_cons_of_mem _ hx)) hy

end Sized

theorem CollisionFree.noCollision {xs ys : List MerkleInput} (h : CollisionFree crates xs ys) (hxs : ∀ x ∈ xs, Sized x)
    (hys : ∀ y ∈ ys, Sized y) : NoCollision (merkleHash crates) xs ys :=
  fun x hx y hy heq => inputBytes_inj (hxs x hx) (hys y hy) (h x hx y hy heq)

theorem Says.length_hash {proof : List (Str × Json)} {index size : Nat} {hashes : List Bytes}
    (h : Says crates proof index size hashes) {b : Bytes} (hb : b ∈ hashes) : b.length = 32 := by
  obtain ⟨-, -, v, items, -, -, hhashes⟩ := h
  obtain ⟨item, -, hitem⟩ := exists_of_mapM_eq_ok hhashes hb
  unfold proofHash at hitem
  simp only [bind_eq_ok, ensure_eq_ok, decide_eq_true_eq] at hitem
  obtain ⟨_, -, b', -, _, hlength, hpure⟩ := hitem
  exact Except.ok.inj hpure ▸ hlength

/-! ## Leaves -/

section Leaf

variable {leaves : List Bytes} {i : Nat} {body : Bytes} {proof : List (Str × Json)} {hashes : List Bytes}

theorem reverse_auditPath : (auditPath crates leaves i).reverse =
    (treeOf leaves).siblings (merkleHash crates) (route leaves.length i) := List.reverse_reverse _

theorem length_auditPath (hbody : leaves[i]? = some body) :
    (auditPath crates leaves i).length = (route leaves.length i).length := by
  rw [auditPath, List.length_reverse]
  exact length_siblings (follow_route hbody)

/-- With the shift in range, the audit path of a leaf is accepted. -/
theorem verifyInclusion_auditPath (hbody : leaves[i]? = some body) (hsize : leaves.length < 2 ^ 64)
    (hshift : innerProofSize i leaves.length < 64) (hread : Says crates proof i leaves.length (auditPath crates leaves i)) :
    verifyInclusion crates proof (merkleLeafHash crates body) (treeHash crates leaves) = .ok () := by
  have hi : i < leaves.length := (List.getElem?_eq_some_iff.mp hbody).1
  have hturns := turnsUp_eq hi hsize hshift
  refine (verifyInclusion_eq_ok hread).mpr ⟨hi, fun _ => hshift, ?_, ?_⟩
  · rw [length_auditPath hbody, ← hturns, List.length_reverse]
  · unfold proofPath
    rw [hturns, reverse_auditPath]
    exact climb_siblings (follow_route hbody)

/-- With the shift in range, nothing else is. -/
theorem of_verifyInclusion (hdigest : ∀ b, (crates.sha256 b).length = 32) (hbody : leaves[i]? = some body)
    (hsize : leaves.length < 2 ^ 64) (hshift : innerProofSize i leaves.length < 64) {leafHash : Bytes}
    (hread : Says crates proof i leaves.length hashes) (hleaf : leafHash.length = 32)
    (hfree : ProofCollisionFree crates leaves leafHash i leaves.length hashes)
    (hok : verifyInclusion crates proof leafHash (treeHash crates leaves) = .ok ()) :
    leafHash = merkleLeafHash crates body ∧ hashes = auditPath crates leaves i := by
  obtain ⟨hi, -, hlength, hclimb⟩ := (verifyInclusion_eq_ok hread).mp hok
  have hturns := turnsUp_eq hi hsize hshift
  have hsame : (route leaves.length i).length = hashes.reverse.length := by
    rw [← hturns, List.length_reverse, List.length_reverse, hlength]
  have hfst : (proofPath i leaves.length hashes).map Prod.fst = route leaves.length i := by
    rw [proofPath, hturns, List.map_fst_zip hsame.le]
  have hsnd : (proofPath i leaves.length hashes).map Prod.snd = hashes.reverse := by
    rw [proofPath, hturns, List.map_snd_zip hsame.ge]
  have hsized : ∀ x ∈ proofPath i leaves.length hashes, x.2.length = 32 := fun x hx =>
    hread.length_hash (List.mem_reverse.mp (hsnd ▸ List.mem_map_of_mem hx))
  have hno := hfree.noCollision (fun x hx => sized_inputs hdigest hx)
    (fun y hy => sized_climbInputs hdigest hleaf hsized hy)
  obtain ⟨hseed, hsiblings⟩ := of_climb_follow hno hclimb (hfst ▸ follow_route hbody)
  rw [hsnd, hfst, ← reverse_auditPath] at hsiblings
  exact ⟨hseed, List.reverse_injective hsiblings⟩

end Leaf

/-! ## Entries -/

section Entry

variable {log : List Bytes} {entry : Json} {p : EntryProof}

theorem toOption_eq_some {α : Type} {x : Checked α} {a : α} : x.toOption = some a ↔ x = .ok a :=
  ⟨eq_ok_of_toOption, fun h => by rw [h]; rfl⟩

theorem indexMap_eq_ok {fields : List (Str × Json)} {key : String} {v : Json} :
    indexMap fields key = .ok v ↔ Json.get? fields key.toList = some v := by
  unfold indexMap
  cases Json.get? fields key.toList <;> simp

theorem decodeB64_eq_ok {s : Str} {what : String} {b : Bytes} :
    decodeB64 crates s what = .ok b ↔ decodeBase64 s = some b := okOr_eq_ok

/-- A checkpoint that is accepted has a signed note, and its root is the one that is given. -/
theorem verifyCheckpoint_eq_ok {proof : List (Str × Json)} {key : EcPublicKey K} {logId root : Bytes}
    (h : verifyCheckpoint crates proof key logId = .ok root) :
    ∃ checkpoint envelope note signatures sig, Json.get? proof "checkpoint".toList = some checkpoint ∧
      (checkpoint.field "envelope").asStr = some envelope ∧
      splitOnceStr "\n\n".toList envelope = some (note, signatures) ∧
      verifyEcdsa crates key .sha256 (encodeUtf8 (note ++ ['\n'])) sig = true ∧
      ((note ++ ['\n']).splitOn '\n')[2]?.bind decodeBase64 = some root := by
  unfold verifyCheckpoint at h
  simp only [bind_eq_ok, indexMap_eq_ok, decodeB64_eq_ok, okOr_eq_ok, ensure_eq_ok, Prod.exists] at h
  obtain ⟨checkpoint, hcheckpoint, envelope, henvelope, note, signatures, hsplit, _, -, raw, -, _, -, _, -, _, hsig, rootB64,
    hline, hroot⟩ := h
  exact ⟨checkpoint, envelope, note, signatures, raw.drop 4, hcheckpoint, henvelope, hsplit, hsig, by rw [hline]; exact hroot⟩

/-- An entry that is accepted with an inclusion proof says a path from its body to the root in a signed note. -/
theorem entryProof_of_verifyRekor {proof : List (Str × Json)} (hproof : (entry.field "inclusionProof").asObject = some proof)
    (hok : verifyRekor crates entry = .ok ()) :
    ∃ p key note sig root, entryProof crates entry = some p ∧ rekorPublicKey crates = .ok key ∧ p.note = note ++ ['\n'] ∧
      verifyEcdsa crates key .sha256 (encodeUtf8 (note ++ ['\n'])) sig = true ∧
      (p.note.splitOn '\n')[2]?.bind decodeBase64 = some root ∧ Says crates proof p.index p.size p.hashes ∧
      verifyInclusion crates proof (merkleLeafHash crates p.body) root = .ok () := by
  unfold verifyRekor at hok
  simp only [bind_eq_ok, okOr_eq_ok, ensure_eq_ok, decodeB64_eq_ok] at hok
  obtain ⟨_, -, _, -, logId, -, bodyB64, hbodyB64, _, -, _, -, _, -, _, -, key, hkey, _, -, hrest⟩ := hok
  rw [hproof] at hrest
  simp only [bind_eq_ok, decodeB64_eq_ok] at hrest
  obtain ⟨root, hcheckpoint, body, hbody, hinclusion⟩ := hrest
  obtain ⟨checkpoint, envelope, note, signatures, sig, hcheckpoint, henvelope, hsplit, hsig, hroot⟩ :=
    verifyCheckpoint_eq_ok hcheckpoint
  obtain ⟨v, hv, index, hindex, w, hw, size, hsize, u, items, hu, hitems, hashes, hhashes⟩ :
      ∃ v, indexMap proof "logIndex" = .ok v ∧ ∃ index, jsonU64 v "inclusionProof logIndex" = .ok index ∧
        ∃ w, indexMap proof "treeSize" = .ok w ∧ ∃ size, jsonU64 w "inclusionProof treeSize" = .ok size ∧
        ∃ u items, indexMap proof "hashes" = .ok u ∧ u.asArray = some items ∧
        ∃ hashes, items.mapM (proofHash crates) = .ok hashes := by
    unfold verifyInclusion at hinclusion
    simp only [bind_eq_ok, okOr_eq_ok] at hinclusion
    obtain ⟨v, hv, index, hindex, w, hw, size, hsize, _, -, u, hu, items, hitems, hashes, hhashes, -⟩ := hinclusion
    exact ⟨v, hv, index, hindex, w, hw, size, hsize, u, items, hu, hitems, hashes, hhashes⟩
  refine ⟨⟨body, note ++ ['\n'], index, size, hashes⟩, key, note, sig, root, ?_, hkey, rfl, hsig, hroot,
    ⟨⟨v, hv, hindex⟩, ⟨w, hw, hsize⟩, u, items, hu, hitems, hhashes⟩, hinclusion⟩
  unfold entryProof
  simp only [hproof, hbodyB64, hbody, hcheckpoint, henvelope, hsplit, indexMap_eq_ok.mp hv, indexMap_eq_ok.mp hw,
    indexMap_eq_ok.mp hu, hitems, toOption_eq_some.mpr hindex, toOption_eq_some.mpr hsize, toOption_eq_some.mpr hhashes,
    Option.bind_eq_bind, Option.bind_some, Option.pure_def]

/-- The turns of a proof that is accepted lead to a leaf with the body, in the tree of the signed note. -/
theorem leafAt_of_verifyRekor (hdigest : ∀ b, (crates.sha256 b).length = 32) (hlog : Unforgeable crates log)
    {proof : List (Str × Json)} (hproof : (entry.field "inclusionProof").asObject = some proof)
    (hfree : ∀ p, entryProof crates entry = some p → p.NoCollisions crates log)
    (hok : verifyRekor crates entry = .ok ()) :
    ∃ p n j, entryProof crates entry = some p ∧ n ≤ log.length ∧
      headOf p.note = some (n, treeHash crates (log.take n)) ∧
      leafAt n (turnsUp p.index p.size).reverse = some j ∧ (log.take n)[j]? = some p.body := by
  obtain ⟨p, key, note, sig, root, hp, hkey, hnote, hsig, hroot, hread, hinclusion⟩ :=
    entryProof_of_verifyRekor hproof hok
  obtain ⟨n, hn, hhead⟩ := hlog key note sig hkey hsig
  rw [← hnote] at hhead
  -- the root that is compared is the one in the note
  obtain rfl : root = treeHash crates (log.take n) := by
    unfold headOf at hhead
    rw [hroot] at hhead
    cases hsize : (p.note.splitOn '\n')[1]?.bind (parseUnsigned 10 usizeMax) with
    | none => rw [hsize] at hhead; cases hhead
    | some size => rw [hsize] at hhead; exact congrArg Prod.snd (Option.some.inj hhead)
  obtain ⟨-, -, hlength, hclimb⟩ := (verifyInclusion_eq_ok hread).mp hinclusion
  have hsame : (turnsUp p.index p.size).reverse.length = p.hashes.reverse.length := by
    rw [List.length_reverse, List.length_reverse, hlength]
  have hsized : ∀ x ∈ proofPath p.index p.size p.hashes, x.2.length = 32 := fun x hx =>
    hread.length_hash (List.mem_reverse.mp (List.of_mem_zip hx).2)
  have hno := (hfree p hp n _ hhead).noCollision (fun x hx => sized_inputs hdigest hx) (by
    intro y hy
    rcases List.mem_cons.mp hy with rfl | hy
    · trivial
    · exact sized_climbInputs hdigest (hdigest _) hsized hy)
  have hfollow := follow_of_climb_leaf hno hclimb
  rw [proofPath, List.map_fst_zip hsame.le] at hfollow
  obtain ⟨j, hj, hvalue⟩ := follow_ofList.mp hfollow
  rw [List.length_take, Nat.min_eq_left hn] at hj
  exact ⟨p, n, j, hp, hn, hhead, hj, hvalue⟩

/-- A proof for the size in the note leads to the leaf of its index, with its shift in range. -/
theorem EntryProof.leadsToIndex (hsize : ∀ n root, headOf p.note = some (n, root) → p.size = n)
    (hindex : p.index < p.size) (hword : p.size < 2 ^ 64) (hshift : innerProofSize p.index p.size < 64) :
    p.LeadsToIndex log := by
  intro n root hhead
  rw [← hsize n root hhead, turnsUp_eq hindex hword hshift]
  exact ⟨p.index, leafAt_route hindex, rfl⟩

end Entry

end ThreeVa.Provenance
