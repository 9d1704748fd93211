import ProofOfProof.Proofs.MerkleTree
import ProofOfProof.Proofs.Payload
import ProofOfProof.Proofs.Scan

/-! What the commitment to a bundle of payloads fixes: its version and the ids in every section. A
section that repeated an id could share its tree with another one; the duplicate check is what rules
such sections out. -/

namespace ProofOfProof.PopData

structure PayloadIds where
  context : List (Fixed 12)
  vtbs : List Hash
  atvs : List Hash
  deriving DecidableEq

structure PayloadIds.Distinct (i : PayloadIds) : Prop where
  context : i.context.Nodup
  vtbs : i.vtbs.Nodup
  atvs : i.atvs.Nodup

def payloadIds (hasher : HeaderHash) (pop : PopData) : Except Fault PayloadIds := do
  let context ← ids (VbkBlock.id hasher) pop.context
  let vtbs ← ids (Vtb.id hasher) pop.vtbs
  let atvs ← ids Atv.id pop.atvs
  return ⟨context, vtbs, atvs⟩

variable {hasher : HeaderHash} {pop : PopData} {i : PayloadIds}

theorem payloadIds_eq_ok : payloadIds hasher pop = .ok i ↔
    ids (VbkBlock.id hasher) pop.context = .ok i.context ∧
      ids (Vtb.id hasher) pop.vtbs = .ok i.vtbs ∧ ids Atv.id pop.atvs = .ok i.atvs := by
  rw [payloadIds]
  simp only [outcome_bind_eq_ok]
  constructor
  · rintro ⟨context, hcontext, vtbs, hvtbs, atvs, hatvs, hi⟩
    cases hi
    exact ⟨hcontext, hvtbs, hatvs⟩
  · rintro ⟨hcontext, hvtbs, hatvs⟩
    exact ⟨i.context, hcontext, i.vtbs, hvtbs, i.atvs, hatvs, rfl⟩

theorem merkleRoot_eq_ok {root : Hash} : merkleRoot hasher pop = .ok root ↔
    ∃ i, payloadIds hasher pop = .ok i ∧
      commitment pop.version i.context i.vtbs i.atvs = root := by
  rw [merkleRoot]
  simp only [outcome_bind_eq_ok, payloadIds_eq_ok]
  constructor
  · rintro ⟨context, hcontext, vtbs, hvtbs, atvs, hatvs, hroot⟩
    exact ⟨⟨context, vtbs, atvs⟩, ⟨hcontext, hvtbs, hatvs⟩, Except.ok.inj hroot⟩
  · rintro ⟨i, ⟨hcontext, hvtbs, hatvs⟩, rfl⟩
    exact ⟨i.context, hcontext, i.vtbs, hvtbs, i.atvs, hatvs, rfl⟩

/-- The outcome of one walk, or of the next one where nothing has stopped it. -/
def orNext (first next : Except Fault Bool) : Except Fault Bool :=
  match first with
  | .ok false => next
  | outcome => outcome

theorem orNext_eq_ok_false {first next : Except Fault Bool} :
    orNext first next = .ok false ↔ first = .ok false ∧ next = .ok false := by
  rcases first with fault | ⟨_ | _⟩ <;> simp [orNext]

theorem hasDuplicates_eq (hasher : HeaderHash) (pop : PopData) : hasDuplicates hasher pop =
    orNext (repeats (VbkBlock.id hasher) pop.context)
      (orNext (repeats (Vtb.id hasher) pop.vtbs) (repeats Atv.id pop.atvs)) := rfl

theorem hasDuplicates_eq_ok_false : hasDuplicates hasher pop = .ok false ↔
    ∃ i, payloadIds hasher pop = .ok i ∧ i.Distinct := by
  simp only [hasDuplicates_eq, orNext_eq_ok_false, repeats_eq_ok_false, payloadIds_eq_ok]
  constructor
  · rintro ⟨⟨context, hcontext, hnc⟩, ⟨vtbs, hvtbs, hnv⟩, atvs, hatvs, hna⟩
    exact ⟨⟨context, vtbs, atvs⟩, ⟨hcontext, hvtbs, hatvs⟩, hnc, hnv, hna⟩
  · rintro ⟨i, ⟨hcontext, hvtbs, hatvs⟩, hd⟩
    exact ⟨⟨i.context, hcontext, hd.context⟩, ⟨i.vtbs, hvtbs, hd.vtbs⟩, i.atvs, hatvs, hd.atvs⟩

theorem hasDuplicates_sample : sample.hasDuplicates defaultHeaderHash = .ok false := by
  decide +kernel

/-- Ids of VeriBlock blocks are cut from hashes, other ids are whole ones. -/
theorem blockIdWidth_le : 12 ≤ 32 := by decide

theorem idWidth_le : 32 ≤ 32 := Nat.le_refl 32

namespace PayloadIds

variable (version : UInt32) (i : PayloadIds)

def leftString : Bytes :=
  (MerkleTree.root blockIdWidth_le i.context).val ++ (MerkleTree.root idWidth_le i.vtbs).val

def versionString : Bytes := bigEndian 4 version.toNat

def rightString : Bytes :=
  (MerkleTree.root idWidth_le i.atvs).val ++ (sha256d (versionString version)).val

def rootString : Bytes := (sha256d i.leftString).val ++ (sha256d (i.rightString version)).val

/-- The strings of the tree of the context, whose nodes keep only part of each hash. -/
def contextStrings : List Bytes := MerkleTree.strings blockIdWidth_le i.context

/-- All strings that are hashed for a commitment. -/
def hashed : List Bytes :=
  i.rootString version :: i.leftString :: i.rightString version :: versionString version ::
    (i.contextStrings ++ (MerkleTree.strings idWidth_le i.vtbs ++
      MerkleTree.strings idWidth_le i.atvs))

theorem commitment_eq :
    commitment version i.context i.vtbs i.atvs = sha256d (i.rootString version) := rfl

theorem versionString_inj {version version' : UInt32}
    (h : versionString version = versionString version') : version = version' := by
  have hlt := version.toNat_lt
  have hlt' := version'.toNat_lt
  have hnat := congrArg ofBigEndian h
  rw [versionString, versionString, ofBigEndian_bigEndian, ofBigEndian_bigEndian,
    Nat.mod_eq_of_lt (by omega), Nat.mod_eq_of_lt (by omega)] at hnat
  exact UInt32.toNat_inj.mp hnat

structure SameHeights (i j : PayloadIds) : Prop where
  context : MerkleTree.SameHeight i.context j.context
  vtbs : MerkleTree.SameHeight i.vtbs j.vtbs
  atvs : MerkleTree.SameHeight i.atvs j.atvs

theorem eq_of_commitment {version version' : UInt32} {i j : PayloadIds} (hi : i.Distinct)
    (hj : j.Distinct) (hs : i.SameHeights j)
    (hc : commitment version i.context i.vtbs i.atvs =
      commitment version' j.context j.vtbs j.atvs)
    (hfull : ¬ Collision sha256d (i.hashed version ++ j.hashed version'))
    (hcut : ¬ Collision (MerkleTree.digest blockIdWidth_le)
      (i.contextStrings ++ j.contextStrings)) : version = version' ∧ i = j := by
  have hsame {x y : Bytes} (hx : x ∈ i.hashed version) (hy : y ∈ j.hashed version')
      (he : sha256d x = sha256d y) : x = y :=
    eq_of_not_collision hfull (List.mem_append_left _ hx) (List.mem_append_right _ hy) he
  have hdigest : ¬ Collision (MerkleTree.digest idWidth_le)
      (i.hashed version ++ j.hashed version') := by
    rw [funext MerkleTree.digest_full]
    exact hfull
  -- From the root down: each equal hash gives an equal string, which falls apart into two hashes.
  rw [commitment_eq, commitment_eq] at hc
  have hroot := hsame (by simp [hashed]) (by simp [hashed]) hc
  obtain ⟨hleft, hright⟩ := Fixed.append_inj hroot
  have hleft := hsame (by simp [hashed]) (by simp [hashed]) hleft
  have hright := hsame (by simp [hashed]) (by simp [hashed]) (Subtype.ext hright)
  obtain ⟨hcontext, hvtbs⟩ := Fixed.append_inj hleft
  obtain ⟨hatvs, hversion⟩ := Fixed.append_inj hright
  have hversion := hsame (by simp [hashed]) (by simp [hashed]) (Subtype.ext hversion)
  refine ⟨versionString_inj hversion, ?_⟩
  have hcontexts : i.context = j.context :=
    MerkleTree.eq_of_root _ hcut hi.context hj.context hs.context
      (List.subset_append_left _ _) (List.subset_append_right _ _) hcontext
  have hvtb : i.vtbs = j.vtbs := by
    refine MerkleTree.eq_of_root _ hdigest hi.vtbs hj.vtbs hs.vtbs ?_ ?_ (Subtype.ext hvtbs)
    · exact List.subset_append_of_subset_left _ fun x hx => by simp [hashed, hx]
    · exact List.subset_append_of_subset_right _ fun x hx => by simp [hashed, hx]
  have hatv : i.atvs = j.atvs := by
    refine MerkleTree.eq_of_root _ hdigest hi.atvs hj.atvs hs.atvs ?_ ?_ hatvs
    · exact List.subset_append_of_subset_left _ fun x hx => by simp [hashed, hx]
    · exact List.subset_append_of_subset_right _ fun x hx => by simp [hashed, hx]
  obtain ⟨context, vtbs, atvs⟩ := i
  obtain ⟨context', vtbs', atvs'⟩ := j
  simp only at hcontexts hvtb hatv
  rw [hcontexts, hvtb, hatv]

end PayloadIds

/-- Two bundles without repetitions, whose sections are equally high, share a commitment only where
their versions and ids are the same, or where strings collide that were hashed for it. -/
theorem payloadIds_eq_of_merkleRoot {p q : PopData} {root : Hash}
    (hp : p.hasDuplicates hasher = .ok false) (hq : q.hasDuplicates hasher = .ok false)
    (hproot : p.merkleRoot hasher = .ok root) (hqroot : q.merkleRoot hasher = .ok root)
    (hcontext : MerkleTree.SameHeight p.context q.context)
    (hvtbs : MerkleTree.SameHeight p.vtbs q.vtbs) (hatvs : MerkleTree.SameHeight p.atvs q.atvs) :
    ∃ i j, p.payloadIds hasher = .ok i ∧ q.payloadIds hasher = .ok j ∧
      ((p.version = q.version ∧ i = j) ∨
        Collision sha256d (i.hashed p.version ++ j.hashed q.version) ∨
        Collision (MerkleTree.digest blockIdWidth_le)
          (i.contextStrings ++ j.contextStrings)) := by
  obtain ⟨i, hi, hdi⟩ := hasDuplicates_eq_ok_false.mp hp
  obtain ⟨j, hj, hdj⟩ := hasDuplicates_eq_ok_false.mp hq
  obtain ⟨i', hi', hrooti⟩ := merkleRoot_eq_ok.mp hproot
  obtain ⟨j', hj', hrootj⟩ := merkleRoot_eq_ok.mp hqroot
  obtain rfl : i' = i := Except.ok.inj (hi'.symm.trans hi)
  obtain rfl : j' = j := Except.ok.inj (hj'.symm.trans hj)
  refine ⟨i', j', hi, hj, ?_⟩
  by_cases hfull : Collision sha256d (i'.hashed p.version ++ j'.hashed q.version)
  · exact .inr (.inl hfull)
  by_cases hcut : Collision (MerkleTree.digest blockIdWidth_le)
      (i'.contextStrings ++ j'.contextStrings)
  · exact .inr (.inr hcut)
  obtain ⟨hci, hvi, hai⟩ := payloadIds_eq_ok.mp hi
  obtain ⟨hcj, hvj, haj⟩ := payloadIds_eq_ok.mp hj
  have hheights : i'.SameHeights j' :=
    ⟨hcontext.of_length (length_ids hci) (length_ids hcj),
      hvtbs.of_length (length_ids hvi) (length_ids hvj),
      hatvs.of_length (length_ids hai) (length_ids haj)⟩
  exact .inl (i'.eq_of_commitment hdi hdj hheights (hrooti.trans hrootj.symm) hfull hcut)

/-- The payload with other signatures in its VTBs, which no id depends on. -/
def resigned (pop : PopData) (signature : Bytes) : PopData :=
  { pop with vtbs := pop.vtbs.map fun vtb =>
      { vtb with transaction := { vtb.transaction with signature := signature } } }

theorem payloadIds_resigned (pop : PopData) (signature : Bytes) :
    (pop.resigned signature).payloadIds hasher = pop.payloadIds hasher := by
  have hids : ids (Vtb.id hasher) (pop.resigned signature).vtbs = ids (Vtb.id hasher) pop.vtbs :=
    List.mapM_map
  rw [payloadIds, hids]
  rfl

/-- The sample with three blocks in its context, of which the last has no other beside it. -/
def threefold : PopData :=
  let block (height : Int32) : VbkBlock :=
    ⟨height, 2, .zero 12, .zero 9, .zero 9, .zero 16, 1000, 7, 1099511627775⟩
  { sample with context := [block 5, block 6, block 7] }

theorem hasDuplicates_threefold : threefold.hasDuplicates defaultHeaderHash = .ok false := by
  have hcontext : repeats (VbkBlock.id defaultHeaderHash) threefold.context = .ok false := by
    decide +kernel
  have hsample := hasDuplicates_sample
  rw [hasDuplicates_eq, orNext_eq_ok_false] at hsample ⊢
  exact ⟨hcontext, hsample.2⟩

theorem payloadIds_eq_of_merkleRoot_resigned :
    ∃ i j, threefold.payloadIds defaultHeaderHash = .ok i ∧
      (threefold.resigned [1]).payloadIds defaultHeaderHash = .ok j ∧
        ((threefold.version = (threefold.resigned [1]).version ∧ i = j) ∨
          Collision sha256d
            (i.hashed threefold.version ++ j.hashed (threefold.resigned [1]).version) ∨
          Collision (MerkleTree.digest blockIdWidth_le)
            (i.contextStrings ++ j.contextStrings)) := by
  have hids : (threefold.resigned [1]).payloadIds defaultHeaderHash =
      threefold.payloadIds defaultHeaderHash := payloadIds_resigned threefold [1]
  have hp := hasDuplicates_threefold
  have hq : (threefold.resigned [1]).hasDuplicates defaultHeaderHash = .ok false := by
    rw [hasDuplicates_eq_ok_false, hids]
    exact hasDuplicates_eq_ok_false.mp hp
  obtain ⟨i, hi, -⟩ := hasDuplicates_eq_ok_false.mp hp
  have hroot := merkleRoot_eq_ok.mpr ⟨i, hi, rfl⟩
  have hsame := merkleRoot_eq_ok.mpr ⟨i, hids.trans hi, rfl⟩
  have hheight {α : Type} (a b : α) (xs ys : List α) (h : xs.length = ys.length) :
      MerkleTree.SameHeight (a :: xs) (b :: ys) :=
    .inr ⟨List.cons_ne_nil a xs, List.cons_ne_nil b ys, by rw [List.length_cons, h]; rfl⟩
  exact payloadIds_eq_of_merkleRoot hp hq hroot hsame
    (hheight _ _ _ _ rfl) (hheight _ _ _ _ rfl) (hheight _ _ _ _ rfl)

end ProofOfProof.PopData
