/-
The target of a staking network looks at the last two blocks of a kind.

A walk down that does not find the kind ends at the root, and so does one that
finds it there and nowhere above. Both count as not found: a walk has found a
block above the root exactly if something is left below it, and what is left
is where the next walk starts.
-/
import StakeChain.Chain.Target
import StakeChain.Proofs.Retargeting

namespace StakeChain.Branch

variable {kind : Bool} {tip l : Link} {below rest : List Link}

/-! ## One walk -/

/-- The blocks of a kind above the root of a branch, last one first. -/
def ofKind (b : Branch) (kind : Bool) : List Link :=
  b.links.dropLast.filter fun l => l.isProofOfStake = kind

theorem ofKind_root : ofKind ⟨tip, []⟩ kind = [] := rfl

/-- The last block counts if it is of the kind. -/
theorem ofKind_cons : ofKind ⟨tip, l :: rest⟩ kind =
    if tip.isProofOfStake = kind then tip :: ofKind ⟨l, rest⟩ kind
    else ofKind ⟨l, rest⟩ kind := by
  rw [ofKind, links, List.dropLast_cons_of_ne_nil (List.cons_ne_nil l rest), List.filter_cons]
  simp only [decide_eq_true_eq]
  rfl

/-- A walk that ends at the root has found no block above it. -/
theorem ofKind_of_below_nil (h : (lastOfKind kind tip below).below = []) :
    ofKind ⟨tip, below⟩ kind = [] := by
  induction below generalizing tip with
  | nil => exact ofKind_root
  | cons l rest ih =>
      rw [lastOfKind] at h
      rw [ofKind_cons]
      split
      · next hkind =>
          rw [if_pos hkind] at h
          cases h
      · next hkind =>
          rw [if_neg hkind] at h
          exact ih h

/-- A walk that ends above the root has found the last block of the kind, and the others are below
where it ended. -/
theorem ofKind_of_below_cons (h : (lastOfKind kind tip below).below = l :: rest) :
    ofKind ⟨tip, below⟩ kind = (lastOfKind kind tip below).tip :: ofKind ⟨l, rest⟩ kind := by
  induction below generalizing tip with
  | nil => cases h
  | cons l' rest' ih =>
      rw [lastOfKind] at h ⊢
      rw [ofKind_cons]
      split
      · next hkind =>
          rw [if_pos hkind] at h
          cases h
          rfl
      · next hkind =>
          rw [if_neg hkind] at h
          exact ih h

/-! ## Two walks -/

/-- The target of a kind comes from the last two blocks of the kind, and is the limit where there
are not two. -/
theorem nextOfKind_eq (b : Branch) (kind : Bool) (limit spacing timespan : UInt32) :
    b.nextOfKind kind limit spacing timespan =
      match b.ofKind kind with
      | last :: before :: _ =>
          Work.nextBlock last.header.time last.header.bits before.header.time limit spacing
            timespan
      | _ => .ok limit := by
  rw [nextOfKind]
  dsimp only
  split
  · next hroot => rw [show b.ofKind kind = [] from ofKind_of_below_nil hroot]
  · next l rest hfound =>
      rw [show b.ofKind kind = _ from ofKind_of_below_cons hfound]
      cases hbefore : (lastOfKind kind l rest).below with
      | nil => rw [ofKind_of_below_nil hbefore, List.isEmpty_nil, if_pos rfl]
      | cons l' rest' =>
          rw [ofKind_of_below_cons hbefore, List.isEmpty_cons, if_neg Bool.false_ne_true]

/-- The blocks of a kind above the root of the branch before a block, if there is one. -/
def kindBefore (previous : Option Branch) (kind : Bool) : List Link :=
  previous.elim [] fun b => b.ofKind kind

/-- The easiest target of a kind of blocks. -/
def kindLimit (p : Params) (s : StakeParams) (kind : Bool) : UInt32 :=
  if kind then s.posLimit else p.powLimit

/-- On a network with staking, the target of the next block of a kind is the limit of the kind as
long as there are not two blocks of it above the root. Then it follows the time between the last
two of them, whatever blocks of the other kind there are. -/
theorem nextTarget_of_kind (previous : Option Branch) (time : UInt32) (kind : Bool) (p : Params)
    (s : StakeParams) (hstake : p.stake = some s) :
    ((kindBefore previous kind).length < 2 →
      nextTarget previous time kind p = .ok (kindLimit p s kind)) ∧
    ∀ last before older, kindBefore previous kind = last :: before :: older →
      nextTarget previous time kind p =
        Work.nextBlock last.header.time last.header.bits before.header.time (kindLimit p s kind)
          s.targetSpacing s.targetTimespan := by
  have htarget : nextTarget previous time kind p =
      match kindBefore previous kind with
      | last :: before :: _ =>
          Work.nextBlock last.header.time last.header.bits before.header.time (kindLimit p s kind)
            s.targetSpacing s.targetTimespan
      | _ => .ok (kindLimit p s kind) := by
    rw [nextTarget, hstake]
    cases previous with
    | none => rfl
    | some b => exact nextOfKind_eq b kind _ _ _
  rw [htarget]
  constructor
  · intro hshort
    split
    · next heq =>
        rw [heq, List.length_cons, List.length_cons] at hshort
        omega
    · rfl
  · intro last before older heq
    rw [heq]

/-! A branch with blocks of both kinds: staked blocks at heights 2 and 4, mined ones elsewhere. -/

namespace Sample

/-- A block that was mined or staked at some time, with some target. -/
def block (height : Nat) (time bits : UInt32) (staked : Bool) : Link :=
  { header := ⟨4, Digest.zero, Digest.zero, time, bits, 0⟩
    hash := Digest.zero
    height := height
    work := 0
    stake := some (StakeRecord.empty.put StakeRecord.stakedBit staked) }

def mixed : Branch :=
  ⟨block 5 1160 0x207fffff false,
    [block 4 1128 0x1a0fffff true, block 3 1064 0x207fffff false,
      block 2 1000 0x1b00ffff true, block 1 900 0x207fffff false,
      block 0 800 0x207fffff true]⟩

end Sample

/-- The last two staked blocks are 128 seconds apart, so the next staked one has a target that is
an eighth easier than that of the last. -/
theorem nextTarget_of_kind_mixed :
    nextTarget (some Sample.mixed) 1200 true Params.stakeRegtest = .ok 0x1a11fffe :=
  ((nextTarget_of_kind (some Sample.mixed) 1200 true Params.stakeRegtest _ rfl).2
    (Sample.block 4 1128 0x1a0fffff true) (Sample.block 2 1000 0x1b00ffff true) []
    (by decide +kernel)).trans (by decide +kernel)

end StakeChain.Branch
