import ThreeVa.Provenance.Inclusion

/-!
# Theorems about the transparency log

What an inclusion proof proves.
-/

namespace ThreeVa.Provenance
open Text

/-! ## Inclusion proofs -/

/-- Proofs for a leaf are checked as RFC 6962 has it exactly if its index and that of the last leaf do not lie on different
sides of 2^63. -/
theorem verifiesRfc6962_iff {K : Type} (crates : Crates K) (hdigest : ∀ b, (crates.sha256 b).length = 32)
    (leaves : List Bytes) (hsize : leaves.length < 2 ^ 64) (i : Nat) (body : Bytes) (hbody : leaves[i]? = some body) :
    VerifiesRfc6962 crates leaves i body ↔ leaves.length ≤ 2 ^ 63 ∨ 2 ^ 63 ≤ i := by
  have hi : i < leaves.length := (List.getElem?_eq_some_iff.mp hbody).1
  rw [← innerProofSize_lt_iff hi hsize]
  refine ⟨fun h => h.shifts _ List.mem_cons_self, fun hshift => ⟨fun amount hamount => ?_, ?_, ?_⟩⟩
  · rcases List.mem_cons.mp hamount with rfl | hamount
    · exact hshift
    · exact (List.mem_range.mp hamount).trans hshift
  · exact fun proof hread => verifyInclusion_auditPath hbody hsize hshift hread
  · exact fun proof leafHash hashes hread hleaf hfree hok =>
      of_verifyInclusion hdigest hbody hsize hshift hread hleaf hfree hok

/-- The digest is the start of the text. -/
def paddedCrates (overflowChecks : Bool) : Crates Unit where
  overflowChecks
  base64Error _ := []
  fromSlice _ := .error []
  fromSec1 _ _ := .error []
  verifyPrehash _ _ _ _ := false
  sha256 b := (b ++ List.replicate 32 0).take 32
  sha384 b := b
  debugLossy _ := []

theorem length_padded (overflowChecks : Bool) (b : Bytes) : ((paddedCrates overflowChecks).sha256 b).length = 32 := by
  simp [paddedCrates]

theorem third_leaf_verifies : VerifiesRfc6962 (paddedCrates true) [[1], [2], [3]] 2 [3] :=
  (verifiesRfc6962_iff (paddedCrates true) (length_padded true) [[1], [2], [3]] (by decide) 2 [3] rfl).mpr
    (.inl (by decide))

/-- A proof for the first leaf of a tree of 2^63 + 1 leaves. -/
def widestProof : List (Str × Json) :=
  [("logIndex".toList, .int 0), ("treeSize".toList, .int 9223372036854775809), ("hashes".toList, .arr [])]

theorem full_width_shift :
    verifyInclusion (paddedCrates true) widestProof [] [] = .error .panic ∧
      ¬ VerifiesRfc6962 (paddedCrates true) (List.replicate 9223372036854775809 []) 0 [] := by
  refine ⟨by decide, fun h => ?_⟩
  have hshift := h.shifts _ List.mem_cons_self
  rw [List.length_replicate] at hshift
  exact absurd hshift (by decide)

/-! ## Entries -/

/-- The signed tree head has the body of an accepted entry as the leaf of the proof's index exactly if the turns of the
proof lead there in the tree of the size in the note. -/
theorem inSignedHead_iff {K : Type} (crates : Crates K) (hdigest : ∀ b, (crates.sha256 b).length = 32) (log : List Bytes)
    (hlog : Unforgeable crates log) (entry : Json) (proof : List (Str × Json))
    (hproof : (entry.field "inclusionProof").asObject = some proof)
    (hfree : ∀ p, entryProof crates entry = some p → p.NoCollisions crates log)
    (hok : verifyRekor crates entry = .ok ()) :
    ∃ p, entryProof crates entry = some p ∧ (p.InSignedHead crates log ↔ p.LeadsToIndex log) := by
  obtain ⟨p, n, j, hp, hn, hhead, hj, hbody⟩ := leafAt_of_verifyRekor hdigest hlog hproof hfree hok
  refine ⟨p, hp, ?_, fun hleads => ?_⟩
  · rintro ⟨n', -, hhead', hindex⟩ m root hm
    rw [hhead] at hhead' hm
    cases hhead'
    cases hm
    exact ⟨j, hj, hbody.trans hindex.symm⟩
  · obtain ⟨j', hj', hsame⟩ := hleads n _ hhead
    rw [hj] at hj'
    cases hj'
    exact ⟨n, hn, hhead, hsame.symm.trans hbody⟩

/-! ## A log of three leaves -/

def threeLeaves : List Bytes := [[1], [2], [3]]

/-- A zero, the start of the text, and zeros up to the length of a digest. -/
def short (b : Bytes) : Bytes := 0 :: (b ++ List.replicate 31 0).take 31

def firstTwo : Bytes := short (0x01 :: short [0x00, 1] ++ short [0x00, 2])

def threeNote : Str :=
  "rekor\n3\n".toList ++ encodeBase64 (short (0x01 :: firstTwo ++ short [0x00, 3])) ++ ['\n']

def threeLogId : Bytes := List.replicate 32 7

def threeSet : Bytes := setPayload (encodeBase64 [3]) 1 threeLogId 1

/-- Two texts are signed, and have digests of their own, as the key has. -/
def threeDigest (b : Bytes) : Bytes :=
  if b.head? = some 0 ∨ b.head? = some 1 then short b
  else if b = encodeUtf8 threeNote then List.replicate 32 9
  else if b = threeSet then List.replicate 32 8
  else if b = pinned rekorSpkiDerB64 then threeLogId
  else short b

def threeCrates : Crates Unit where
  overflowChecks := true
  base64Error _ := []
  fromSlice _ := .error []
  fromSec1 _ _ := .ok ()
  verifyPrehash _ _ digest _ := digest = List.replicate 32 9 || digest = List.replicate 32 8
  sha256 := threeDigest
  sha384 b := b
  debugLossy _ := []

/-- The entry of the last leaf, with a proof for a leaf of a tree. -/
def threeEntry (index size : Int) : Json :=
  .object [("logId", .object [("keyId", .str (encodeBase64 threeLogId))]),
    ("canonicalizedBody", .str (encodeBase64 [3])), ("integratedTime", .int 1), ("logIndex", .int 1),
    ("inclusionPromise", .object [("signedEntryTimestamp", .text "")]),
    ("inclusionProof", .object [("logIndex", .int index), ("treeSize", .int size),
      ("hashes", .arr [.str (encodeBase64 firstTwo)]),
      ("checkpoint", .object [("envelope", .str (threeNote ++ "\n— rekor ".toList ++ encodeBase64 threeLogId))])])]

theorem length_threeDigest (b : Bytes) : (threeDigest b).length = 32 := by
  unfold threeDigest short threeLogId
  repeat' split
  all_goals simp

theorem treeOf_threeLeaves : treeOf threeLeaves = .node (.node (.leaf [1]) (.leaf [2])) (.leaf [3]) := by
  have hone : Merkle.split ([[1], [2]] : List Bytes).length = 1 := by decide
  have htwo : Merkle.split ([[1], [2], [3]] : List Bytes).length = 2 := by decide
  rw [treeOf, threeLeaves, Merkle.ofList_of_le (by decide), htwo]
  simp only [List.take_succ_cons, List.take_zero, List.drop_succ_cons, List.drop_zero]
  rw [Merkle.ofList_of_le (by decide), hone]
  simp [Merkle.Tree.ofList]

theorem treeHash_threeLeaves :
    treeHash threeCrates threeLeaves = short (0x01 :: firstTwo ++ short [0x00, 3]) := by
  rw [treeHash, treeOf_threeLeaves]
  rfl

theorem headOf_threeNote : headOf threeNote = some (3, treeHash threeCrates (threeLeaves.take 3)) := by
  have hall : threeLeaves.take 3 = threeLeaves := rfl
  rw [hall, treeHash_threeLeaves]
  decide

theorem unforgeable_three : Unforgeable threeCrates threeLeaves := by
  intro key note sig _ hsig
  have hdigest : threeDigest (encodeUtf8 (note ++ ['\n'])) = List.replicate 32 9 ∨
      threeDigest (encodeUtf8 (note ++ ['\n'])) = List.replicate 32 8 := by
    cases key with
    | p256 key => simpa [verifyEcdsa, threeCrates] using hsig
    | p384 key => cases hsig
  refine ⟨3, le_refl 3, ?_⟩
  have hshort : ∀ b, ¬ (short b = List.replicate 32 9 ∨ short b = List.replicate 32 8) := by
    rintro b (h | h)
    · exact absurd (List.cons.inj h).1 (by decide)
    · exact absurd (List.cons.inj h).1 (by decide)
  unfold threeDigest at hdigest
  split at hdigest
  · exact absurd hdigest (hshort _)
  · split at hdigest
    · rename_i hnote
      rw [encodeUtf8_inj hnote]
      exact headOf_threeNote
    · split at hdigest
      · -- the other signed text does not end a line
        rename_i hset
        have hlast : some 0x0a = threeSet.getLast? := by
          rw [← hset, encodeUtf8_append, List.getLast?_append]
          rfl
        exact absurd hlast (by decide)
      · split at hdigest
        · exact absurd hdigest (by decide)
        · exact absurd hdigest (hshort _)

set_option maxRecDepth 4000 in
/-- The entry of the last leaf with a proof by one turn to the right, of leaf 2 in a tree of three leaves or of leaf 1 in one
of two. -/
theorem entryProof_threeEntry {index size : Nat} (h : (index, size) ∈ [(1, 2), (2, 3)]) :
    entryProof threeCrates (threeEntry index size) = some ⟨[3], threeNote, index, size, [firstTwo]⟩ ∧
      turnsUp index size = [true] ∧ verifyRekor threeCrates (threeEntry index size) = .ok () := by
  simp only [List.mem_cons, Prod.mk.injEq, List.not_mem_nil, or_false] at h
  rcases h with ⟨rfl, rfl⟩ | ⟨rfl, rfl⟩
  · exact ⟨by rfl, by decide, eq_ok_of_toOption (by decide)⟩
  · exact ⟨by rfl, by decide, eq_ok_of_toOption (by decide)⟩

theorem collisionFree_three :
    CollisionFree threeCrates ((treeOf threeLeaves).inputs (merkleHash threeCrates))
      (.leaf [3] :: Merkle.climbInputs (merkleHash threeCrates) (merkleLeafHash threeCrates [3]) [(true, firstTwo)]) := by
  rw [treeOf_threeLeaves]
  unfold CollisionFree
  decide

theorem noCollisions_three {index size : Nat} (h : (index, size) ∈ [(1, 2), (2, 3)]) :
    ∀ p, entryProof threeCrates (threeEntry index size) = some p → p.NoCollisions threeCrates threeLeaves := by
  obtain ⟨hproof, hturns, -⟩ := entryProof_threeEntry h
  rintro p hp n root hhead
  rw [hproof] at hp
  cases hp
  rw [headOf_threeNote] at hhead
  cases hhead
  have hall : threeLeaves.take 3 = threeLeaves := rfl
  rw [hall, proofPath, hturns]
  exact collisionFree_three

theorem last_leaf_logged :
    ∃ p, entryProof threeCrates (threeEntry 2 3) = some p ∧
      (p.InSignedHead threeCrates threeLeaves ↔ p.LeadsToIndex threeLeaves) :=
  inSignedHead_iff threeCrates length_threeDigest threeLeaves unforgeable_three (threeEntry 2 3) _ rfl
    (noCollisions_three (by decide)) (entryProof_threeEntry (by decide)).2.2

/-- The last leaf is accepted as the second one, by a proof for a tree of two leaves. -/
theorem last_leaf_as_second :
    (∀ b, (threeCrates.sha256 b).length = 32) ∧ Unforgeable threeCrates threeLeaves ∧
      verifyRekor threeCrates (threeEntry 1 2) = .ok () ∧
      ∃ p, entryProof threeCrates (threeEntry 1 2) = some p ∧ p.NoCollisions threeCrates threeLeaves ∧
        ¬ p.InSignedHead threeCrates threeLeaves := by
  obtain ⟨hproof, -, hok⟩ := entryProof_threeEntry (show (1, 2) ∈ _ by decide)
  refine ⟨length_threeDigest, unforgeable_three, hok, _, hproof, noCollisions_three (by decide) _ hproof, ?_⟩
  rintro ⟨n, -, hhead, hbody⟩
  rw [headOf_threeNote] at hhead
  cases hhead
  exact absurd hbody (by decide)

end ThreeVa.Provenance
