/-
What a merkle root tells of its list.

A level of odd length repeats its last hash, so a list may share its root
with a longer one that repeats its end. Taken level by level from the root
down, the hashes on one level show the pairs on the level below, as long as
the pairs have hashes of their own. What the pairs leave open is whether the
last one was written out or filled up: the length of the list settles that,
and so does the report of equal pairs.
-/
import Mathlib.Data.List.Nodup
import Mathlib.Data.Nat.Log
import StakeChain.Merkle

namespace StakeChain

/-- No two of some byte strings share a hash. -/
structure CollisionFree (hashed : List Bytes) : Prop where
  inj : ∀ a ∈ hashed, ∀ b ∈ hashed, hash256 a = hash256 b → a = b

namespace CollisionFree

variable {k k' l l' : List Bytes}

theorem mono (h : CollisionFree l') (hl : l ⊆ l') : CollisionFree l :=
  ⟨fun a ha b hb => h.inj a (hl ha) b (hl hb)⟩

/-- Parts of the strings on both sides. -/
theorem parts (h : CollisionFree (k ++ k')) (hl : l ⊆ k) (hl' : l' ⊆ k') :
    CollisionFree (l ++ l') :=
  h.mono (List.append_subset.mpr
    ⟨fun _ hx => List.mem_append_left _ (hl hx), fun _ hx => List.mem_append_right _ (hl' hx)⟩)

theorem left (h : CollisionFree ((k ++ l) ++ (k' ++ l'))) : CollisionFree (k ++ k') :=
  h.parts (List.subset_append_left k l) (List.subset_append_left k' l')

theorem right (h : CollisionFree ((k ++ l) ++ (k' ++ l'))) : CollisionFree (l ++ l') :=
  h.parts (List.subset_append_right k l) (List.subset_append_right k' l')

theorem twice (h : CollisionFree l) : CollisionFree (l ++ l) :=
  h.mono (List.append_subset.mpr ⟨List.Subset.refl l, List.Subset.refl l⟩)

theorem of_nodup (h : (l.map hash256).Nodup) : CollisionFree l :=
  ⟨fun _ ha _ hb => List.inj_on_of_nodup_map h ha hb⟩

theorem map_hash256_inj (h : CollisionFree (l ++ l')) (heq : l.map hash256 = l'.map hash256) :
    l = l' := by
  induction l generalizing l' with
  | nil => exact (List.map_eq_nil_iff.mp heq.symm).symm
  | cons a l ih =>
      cases l' with
      | nil => cases heq
      | cons b l' =>
          obtain ⟨hab, hrest⟩ := List.cons.inj heq
          have hinj := h.inj a List.mem_cons_self b
            (List.mem_append_right _ List.mem_cons_self) hab
          rw [hinj, ih (h.parts (List.subset_cons_self a l) (List.subset_cons_self b l')) hrest]

end CollisionFree

namespace Merkle

/-! ## One level -/

/-- What is hashed for the level above. -/
def pairs : List Hash256 → List Bytes
  | a :: b :: rest => (a.bytes ++ b.bytes) :: pairs rest
  | [a] => [a.bytes ++ a.bytes]
  | [] => []

theorem pairUp_eq_map : ∀ l : List Hash256, pairUp l = (pairs l).map hash256
  | [] => rfl
  | [_] => rfl
  | a :: b :: rest => congrArg (node a b :: ·) (pairUp_eq_map rest)

theorem length_pairUp : ∀ l : List Hash256, (pairUp l).length = (l.length + 1) / 2
  | [] => rfl
  | [a] => by simp [pairUp]
  | a :: b :: rest => by
      rw [pairUp, List.length_cons, length_pairUp rest, List.length_cons, List.length_cons]
      omega

theorem pairUp_ne_nil {l : List Hash256} (h : l ≠ []) : pairUp l ≠ [] := by
  intro hnil
  have hlength := length_pairUp l
  rw [hnil, List.length_nil] at hlength
  have hpos := List.length_pos_of_ne_nil h
  omega

/-- The bytes of a pair show both hashes. -/
theorem pair_inj {a b c d : Hash256} (h : a.bytes ++ b.bytes = c.bytes ++ d.bytes) :
    a = c ∧ b = d := by
  obtain ⟨hac, hbd⟩ := List.append_inj h (a.length_bytes.trans c.length_bytes.symm)
  exact ⟨Digest.ext hac, Digest.ext hbd⟩

/-- Pairs show their hashes, but for the last one of a level: whether it was written out twice or
filled up shows in the number of hashes and as a pair of equal ones. -/
theorem eq_or_of_pairs : ∀ {l l' : List Hash256}, pairs l = pairs l' →
    l = l' ∨ l.length ≠ l'.length ∧ (hasTwins l ∨ hasTwins l')
  | [], [], _ => .inl rfl
  | [], [_], h | [], _ :: _ :: _, h | [_], [], h | _ :: _ :: _, [], h => by cases h
  | [a], [c], h => by
      rw [(pair_inj (List.cons.inj h).1).1]
      exact .inl rfl
  | [a], c :: d :: rest, h => by
      obtain ⟨hpair, hrest⟩ := List.cons.inj h
      obtain ⟨rfl, rfl⟩ := pair_inj hpair
      exact .inr ⟨by simp, .inr (by simp [hasTwins])⟩
  | a :: b :: rest, [c], h => by
      obtain ⟨hpair, hrest⟩ := List.cons.inj h
      obtain ⟨rfl, rfl⟩ := pair_inj hpair
      exact .inr ⟨by simp, .inl (by simp [hasTwins])⟩
  | a :: b :: rest, c :: d :: rest', h => by
      obtain ⟨hpair, hrest⟩ := List.cons.inj h
      obtain ⟨rfl, rfl⟩ := pair_inj hpair
      rcases eq_or_of_pairs hrest with heq | ⟨hlength, htwins⟩
      · exact .inl (by rw [heq])
      · refine .inr ⟨by simpa using hlength, ?_⟩
        rw [hasTwins, hasTwins, Bool.or_eq_true, Bool.or_eq_true]
        exact htwins.imp .inr .inr

theorem mem_of_mem_pairs {bs : Bytes} : ∀ {l : List Hash256}, bs ∈ pairs l →
    ∃ a ∈ l, ∃ b ∈ l, bs = a.bytes ++ b.bytes
  | [a], h => ⟨a, List.mem_cons_self, a, List.mem_cons_self, List.mem_singleton.mp h⟩
  | a :: b :: rest, h => by
      rcases List.mem_cons.mp h with rfl | h
      · exact ⟨a, List.mem_cons_self, b, List.mem_cons_of_mem a List.mem_cons_self, rfl⟩
      · obtain ⟨c, hc, d, hd, rfl⟩ := mem_of_mem_pairs h
        have hsub : ∀ {x}, x ∈ rest → x ∈ a :: b :: rest := fun hx =>
          List.mem_cons_of_mem a (List.mem_cons_of_mem b hx)
        exact ⟨c, hsub hc, d, hsub hd, rfl⟩

/-- Different hashes make different pairs. -/
theorem nodup_pairs : ∀ {l : List Hash256}, l.Nodup → (pairs l).Nodup
  | [], _ => List.nodup_nil
  | [_], _ => List.nodup_singleton _
  | a :: b :: rest, h => by
      obtain ⟨ha, hrest⟩ := List.nodup_cons.mp h
      refine List.nodup_cons.mpr ⟨fun hm => ?_, nodup_pairs hrest.of_cons⟩
      obtain ⟨c, hc, d, hd, hpair⟩ := mem_of_mem_pairs hm
      obtain ⟨rfl, -⟩ := pair_inj hpair
      exact ha (List.mem_cons_of_mem b hc)

theorem nodup_pairUp {l : List Hash256} (h : l.Nodup) (hfree : CollisionFree (pairs l)) :
    (pairUp l).Nodup := by
  rw [pairUp_eq_map]
  exact (nodup_pairs h).map_on hfree.inj

theorem hasTwins_of_nodup : ∀ {l : List Hash256}, l.Nodup → hasTwins l = false
  | [], _ => rfl
  | [_], _ => rfl
  | a :: b :: rest, h => by
      obtain ⟨ha, hrest⟩ := List.nodup_cons.mp h
      have hab : a ≠ b := fun h => ha (h ▸ List.mem_cons_self)
      rw [hasTwins, hasTwins_of_nodup hrest.of_cons, beq_eq_false_iff_ne.mpr hab]
      rfl

/-! ## The tree -/

/-- How many levels the tree over a list has above it. -/
def depth : List Hash256 → Nat
  | a :: b :: rest => depth (pairUp (a :: b :: rest)) + 1
  | _ => 0
termination_by l => l.length
decreasing_by
  have := length_pairUp_le rest
  simp only [pairUp, List.length_cons]
  omega

/-- What is hashed for all levels. -/
def hashed : List Hash256 → List Bytes
  | a :: b :: rest => pairs (a :: b :: rest) ++ hashed (pairUp (a :: b :: rest))
  | _ => []
termination_by l => l.length
decreasing_by
  have := length_pairUp_le rest
  simp only [pairUp, List.length_cons]
  omega

/-- What holds of lists that are their own root, and comes down from the level above, holds of
all lists. -/
@[elab_as_elim]
theorem levels_induction {P : List Hash256 → Prop} (nil : P []) (single : ∀ a, P [a])
    (below : ∀ a b rest, P (pairUp (a :: b :: rest)) → P (a :: b :: rest))
    (l : List Hash256) : P l := by
  induction l using depth.induct with
  | case1 a b rest ih => exact below a b rest ih
  | case2 l hshort =>
      rcases l with _ | ⟨a, _ | ⟨b, rest⟩⟩
      · exact nil
      · exact single a
      · exact absurd rfl (hshort a b rest)

/-- The number of levels goes by the length of the list alone. -/
theorem depth_eq_clog (l : List Hash256) : depth l = Nat.clog 2 l.length := by
  induction l using levels_induction with
  | nil => simp [depth]
  | single a => simp [depth]
  | below a b rest ih =>
      have htwo : 2 ≤ (a :: b :: rest).length := by simp
      rw [depth, ih, length_pairUp]
      exact (Nat.clog_of_two_le (Nat.le_refl 2) htwo).symm

/-- The report says whether lower levels were mutated, or any level is. -/
theorem rootFrom_eq (mutated : Bool) (l : List Hash256) :
    rootFrom mutated l = ⟨(root l).hash, mutated || (root l).mutated⟩ := by
  induction l using levels_induction generalizing mutated with
  | nil => simp [root, rootFrom]
  | single a => simp [root, rootFrom]
  | below a b rest ih =>
      rw [root, rootFrom, rootFrom, ih, ih (false || _), Bool.or_assoc, Bool.or_assoc,
        Bool.false_or]

theorem root_nil : root [] = ⟨Digest.zero, false⟩ := by
  rw [root, rootFrom]

theorem root_singleton (h : Hash256) : root [h] = ⟨h, false⟩ := by
  rw [root, rootFrom]

theorem root_cons_cons (a b : Hash256) (rest : List Hash256) :
    root (a :: b :: rest) =
      ⟨(root (pairUp (a :: b :: rest))).hash,
        hasTwins (a :: b :: rest) || (root (pairUp (a :: b :: rest))).mutated⟩ := by
  rw [root, rootFrom, rootFrom_eq, Bool.false_or]

/-! ## From the root down -/

/-- Equal roots of trees of one depth show equal lists, by going down level by level. What is
known of the two lists has to carry over to the level above, and to say of a level whether its
last pair was filled up. -/
theorem eq_of_root_hash_eq {R : List Hash256 → List Hash256 → Prop}
    (up : ∀ {l l'}, R l l' → R (pairUp l) (pairUp l'))
    (down : ∀ {l l'}, R l l' → pairs l = pairs l' → l = l') {l l' : List Hash256} (hR : R l l')
    (hne : l ≠ []) (hne' : l' ≠ []) (hdepth : depth l = depth l')
    (hfree : CollisionFree (hashed l ++ hashed l')) (hroot : (root l).hash = (root l').hash) :
    l = l' := by
  induction l using levels_induction generalizing l' with
  | nil => exact absurd rfl hne
  | single a =>
      rcases l' with _ | ⟨c, _ | ⟨d, rest'⟩⟩
      · exact absurd rfl hne'
      · rw [root_singleton, root_singleton] at hroot
        exact congrArg (fun h => [h]) hroot
      · simp [depth] at hdepth
  | below a b rest ih =>
      rcases l' with _ | ⟨c, _ | ⟨d, rest'⟩⟩
      · exact absurd rfl hne'
      · simp [depth] at hdepth
      · rw [depth, depth] at hdepth
        rw [root_cons_cons, root_cons_cons] at hroot
        rw [hashed, hashed] at hfree
        have habove : pairUp (a :: b :: rest) = pairUp (c :: d :: rest') :=
          ih (up hR) (pairUp_ne_nil hne) (pairUp_ne_nil hne') (Nat.add_right_cancel hdepth)
            hfree.right hroot
        refine down hR (hfree.left.map_hash256_inj ?_)
        rw [← pairUp_eq_map, ← pairUp_eq_map, habove]

/-- Lists of one length. -/
theorem eq_of_root_hash_of_length {l l' : List Hash256} (hlength : l.length = l'.length)
    (hne : l ≠ []) (hfree : CollisionFree (hashed l ++ hashed l'))
    (hroot : (root l).hash = (root l').hash) : l = l' := by
  have hne' : l' ≠ [] := fun h => hne (List.length_eq_zero_iff.mp (by rw [hlength, h]; rfl))
  refine eq_of_root_hash_eq (R := fun l l' => l.length = l'.length) (fun h => ?_) (fun h hp => ?_)
    hlength hne hne' ?_ hfree hroot
  · rw [length_pairUp, length_pairUp, h]
  · exact (eq_or_of_pairs hp).resolve_right fun hdiff => hdiff.1 h
  · rw [depth_eq_clog, depth_eq_clog, hlength]

/-- A level that is not reported has no twins, nor is the one above reported. -/
theorem not_mutated {l : List Hash256} (h : (root l).mutated = false) :
    hasTwins l = false ∧ (root (pairUp l)).mutated = false := by
  rcases l with _ | ⟨a, _ | ⟨b, rest⟩⟩
  · exact ⟨rfl, h⟩
  · exact ⟨rfl, congrArg Root.mutated (root_singleton _)⟩
  · rw [root_cons_cons] at h
    exact Bool.or_eq_false_iff.mp h

theorem not_mutated_of_nodup {l : List Hash256} (h : l.Nodup) (hfree : CollisionFree (hashed l)) :
    (root l).mutated = false := by
  induction l using levels_induction with
  | nil => rw [root_nil]
  | single a => rw [root_singleton]
  | below a b rest ih =>
      rw [hashed] at hfree
      have habove := ih (nodup_pairUp h (hfree.mono (List.subset_append_left _ _)))
        (hfree.mono (List.subset_append_right _ _))
      rw [root_cons_cons, hasTwins_of_nodup h, habove]
      rfl

/-- What the report of equal pairs is worth, as long as the pairs that are hashed have hashes of
their own. Of all lists whose trees are of one depth, at most one has a given root and is not
reported; and a list of different hashes is never reported. -/
theorem root_inj_of_not_mutated :
    (∀ l l' : List Hash256, l ≠ [] → l' ≠ [] → depth l = depth l' →
      CollisionFree (hashed l ++ hashed l') → (root l).hash = (root l').hash →
      (root l).mutated = false → (root l').mutated = false → l = l') ∧
    ∀ l : List Hash256, l.Nodup → CollisionFree (hashed l) → (root l).mutated = false := by
  refine ⟨fun l l' hne hne' hdepth hfree hroot hl hl' => ?_, fun l => not_mutated_of_nodup⟩
  refine eq_of_root_hash_eq
    (R := fun l l' => (root l).mutated = false ∧ (root l').mutated = false)
    (fun h => ⟨(not_mutated h.1).2, (not_mutated h.2).2⟩) (fun h hp => ?_) ⟨hl, hl'⟩ hne hne'
    hdepth hfree hroot
  refine (eq_or_of_pairs hp).resolve_right fun hdiff => ?_
  rw [(not_mutated h.1).1, (not_mutated h.2).1] at hdiff
  simp at hdiff

/-- Some different hashes. -/
def leaves (n : Nat) : List Hash256 :=
  (List.range n).map Digest.ofNat

/-- Three hashes: their tree is not reported, and no other list that is not has its root. The list
that repeats the third one has it, and is reported. -/
theorem root_inj_of_not_mutated_three :
    (root (leaves 3)).mutated = false ∧
      leaves 3 = [Digest.ofNat 0, Digest.ofNat 1, Digest.ofNat 2] ∧
      (root (leaves 3 ++ [Digest.ofNat 2])).hash = (root (leaves 3)).hash ∧
      (root (leaves 3 ++ [Digest.ofNat 2])).mutated = true := by
  have hfree : CollisionFree (hashed (leaves 3)) := .of_nodup (by decide +kernel)
  have hplain := root_inj_of_not_mutated.2 (leaves 3) (by decide) hfree
  have hsame : leaves 3 = [Digest.ofNat 0, Digest.ofNat 1, Digest.ofNat 2] :=
    root_inj_of_not_mutated.1 (leaves 3) _ (by decide) (by decide) rfl hfree.twice rfl hplain
      hplain
  refine ⟨hplain, hsame, ?_, ?_⟩
  · simp [hsame, root_cons_cons, pairUp]
  · simp [hsame, root_cons_cons, pairUp, hasTwins]

end Merkle

end StakeChain
