/-
Where branches part, and what a change of branch undoes and connects.

Heights go down by one from a header to the one before it, so every header
that two branches share stands at the same height on both, and once they
share one they share all that are below it. The headers they share are
therefore those up to the last one, the fork. To find it the higher branch
is cut to the height of the lower one, which loses no shared header, and then
both are followed down in step: as long as the last headers differ, what they
share is shared by their parents, and the first time the hashes agree it is
one header, because no two headers of the tree have one hash. Where the
branches come from different roots both walks end together at height zero.

A branch is what it was up to the fork and what stands above it, for the tip
and for the candidate alike. What a change undoes and what it connects are
these two upper parts.
-/
import StakeChain.Chain.Fork
import StakeChain.Chain.Index
import StakeChain.Proofs.Ancestry

namespace StakeChain

/-- The branch was grown from a root, one header at a time. -/
inductive Branch.Grown : Branch → Prop
  | root {header : BlockHeader} : Grown (.root header)
  | extend {b b' : Branch} {header : BlockHeader} {stake : Option StakeRecord} :
      Grown b → b.extend header stake = .ok b' → Grown b'

theorem Branch.Grown.rooted {b : Branch} (h : b.Grown) : b.Rooted := by
  induction h with
  | root => exact rooted_root _
  | extend _ he ih => exact ih.extend he

/-- Headers that were grown from roots, with all that are before them. No two of them have one
hash. -/
structure Forest where
  /-- The branches that end with the headers of the forest. -/
  branches : Branch → Prop
  grown : ∀ b, branches b → b.Grown
  closed : ∀ b parent, branches b → b.parent? = some parent → branches parent
  identified : ∀ a b, branches a → branches b → a.hash = b.hash → a = b

instance : Membership Branch Forest :=
  ⟨fun forest b => forest.branches b⟩

theorem Forest.mem_of_suffix {forest : Forest} {a b : Branch} (hb : b ∈ forest)
    (ha : a.links <:+ b.links) : a ∈ forest := by
  induction b using Branch.induction_parent with
  | lowest b hp =>
      cases Branch.eq_of_suffix_of_parent?_none hp ha
      exact hb
  | above b parent hp ih =>
      rcases (Branch.suffix_of_parent? hp).mp ha with rfl | ha
      · exact hb
      · exact ih (forest.closed b parent hb hp) ha

theorem Forest.rooted {forest : Forest} {b : Branch} (hb : b ∈ forest) : b.Rooted :=
  (forest.grown b hb).rooted

namespace Branch

variable {a b c d parent fork : Branch} {height : Nat} {forest : Forest}

/-! ## Heights in a branch that is known down to its root -/

theorem Rooted.of_parent? (h : b.Rooted) (hp : b.parent? = some parent) :
    b.height = parent.height + 1 ∧ parent.Rooted := by
  obtain ⟨tip, below⟩ := b
  cases h with
  | root _ => cases hp
  | above hl hrest =>
      cases hp
      exact ⟨hl, hrest⟩

theorem Rooted.height_of_parent?_none (h : b.Rooted) (hp : b.parent? = none) : b.height = 0 := by
  obtain ⟨tip, below⟩ := b
  cases h with
  | root hl => exact hl
  | above _ _ => cases hp

/-- The number of headers is told by the height. -/
theorem Rooted.length_links (h : b.Rooted) : b.links.length = b.height + 1 := by
  induction b using induction_parent with
  | lowest b hp => rw [links_of_parent?_none hp, h.height_of_parent?_none hp, List.length_singleton]
  | above b parent hp ih =>
      obtain ⟨hheight, hparent⟩ := h.of_parent? hp
      rw [links_of_parent? hp, List.length_cons, ih hparent, hheight]

theorem Rooted.of_suffix (h : b.Rooted) (ha : a.links <:+ b.links) : a.Rooted := by
  induction b using induction_parent with
  | lowest b hp => exact eq_of_suffix_of_parent?_none hp ha ▸ h
  | above b parent hp ih =>
      rcases (suffix_of_parent? hp).mp ha with rfl | ha
      · exact h
      · exact ih (h.of_parent? hp).2 ha

/-- Of two headers of a branch the lower one is below the higher one. -/
theorem Rooted.suffix_of_height_le (h : b.Rooted) (ha : a.links <:+ b.links)
    (hc : c.links <:+ b.links) (hle : a.height ≤ c.height) : a.links <:+ c.links := by
  refine List.suffix_of_suffix_length_le ha hc ?_
  rw [(h.of_suffix ha).length_links, (h.of_suffix hc).length_links]
  exact Nat.succ_le_succ hle

/-! ## What two branches share -/

/-- The last header that two branches share: all that they share is up to it. -/
structure IsFork (fork a b : Branch) : Prop where
  left : fork.links <:+ a.links
  right : fork.links <:+ b.links
  last : ∀ d : Branch, d.links <:+ a.links → d.links <:+ b.links → d.links <:+ fork.links

theorem IsFork.symm (h : IsFork fork a b) : IsFork fork b a :=
  ⟨h.right, h.left, fun d hb ha => h.last d ha hb⟩

/-- There is one fork at most. -/
theorem IsFork.eq (h : IsFork fork a b) (h' : IsFork c a b) : fork = c := by
  have hle : fork.links <:+ c.links := h'.last fork h.left h.right
  have hge : c.links <:+ fork.links := h.last c h'.left h'.right
  exact eq_of_links_eq (hle.eq_of_length (Nat.le_antisymm hle.length_le hge.length_le))

/-- What two branches of one height share is shared by their parents, unless it is all. -/
theorem shared_of_parent? (hheight : a.height = b.height) (ha : a.Rooted) (hb : b.Rooted)
    (hne : a ≠ b) {pa pb : Branch} (hpa : a.parent? = some pa) (hpb : b.parent? = some pb)
    (hda : d.links <:+ a.links) (hdb : d.links <:+ b.links) :
    d.links <:+ pa.links ∧ d.links <:+ pb.links := by
  have hlength : a.links.length = b.links.length := by
    rw [ha.length_links, hb.length_links, hheight]
  rcases (suffix_of_parent? hpa).mp hda with rfl | hda
  · exact absurd (eq_of_links_eq (hdb.eq_of_length hlength)) hne
  · rcases (suffix_of_parent? hpb).mp hdb with rfl | hdb
    · have hle : d.links.length ≤ pa.links.length := hda.length_le
      rw [links_of_parent? hpa, List.length_cons] at hlength
      omega
    · exact ⟨hda, hdb⟩

/-! ## Following two branches down in step -/

theorem meet_of_hash_eq (h : a.hash = b.hash) : meet a.tip b.tip a.below b.below = some a := by
  unfold meet
  exact if_pos h

theorem meet_of_parent? (h : a.hash ≠ b.hash) {pa pb : Branch} (hpa : a.parent? = some pa)
    (hpb : b.parent? = some pb) :
    meet a.tip b.tip a.below b.below = meet pa.tip pb.tip pa.below pb.below := by
  obtain ⟨a, as⟩ := a
  obtain ⟨b, bs⟩ := b
  cases as with
  | nil => cases hpa
  | cons a' as =>
      cases bs with
      | nil => cases hpb
      | cons b' bs =>
          cases hpa
          cases hpb
          rw [meet]
          exact if_neg h

theorem meet_of_parent?_none (h : a.hash ≠ b.hash) (hpa : a.parent? = none) :
    meet a.tip b.tip a.below b.below = none := by
  obtain ⟨a, as⟩ := a
  cases as with
  | nil =>
      unfold meet
      exact if_neg h
  | cons a' as => cases hpa

/-- From one height the walk finds the fork, or there is nothing shared. -/
theorem meet_spec (ha : a ∈ forest) (hb : b ∈ forest) (hheight : a.height = b.height) :
    (∃ fork, meet a.tip b.tip a.below b.below = some fork ∧ IsFork fork a b) ∨
      (meet a.tip b.tip a.below b.below = none ∧
        ∀ d : Branch, d.links <:+ a.links → ¬d.links <:+ b.links) := by
  induction a using induction_parent generalizing b with
  | lowest a hpa =>
      by_cases hhash : a.hash = b.hash
      · obtain rfl := forest.identified a b ha hb hhash
        exact .inl ⟨a, meet_of_hash_eq rfl, List.suffix_refl _, List.suffix_refl _, fun _ hd _ => hd⟩
      · refine .inr ⟨meet_of_parent?_none hhash hpa, ?_⟩
        intro d hda hdb
        obtain rfl := eq_of_suffix_of_parent?_none hpa hda
        have hlength : d.links.length = b.links.length := by
          rw [(forest.rooted ha).length_links, (forest.rooted hb).length_links, hheight]
        exact hhash (congrArg hash (eq_of_links_eq (hdb.eq_of_length hlength)))
  | above a pa hpa ih =>
      by_cases hhash : a.hash = b.hash
      · obtain rfl := forest.identified a b ha hb hhash
        exact .inl ⟨a, meet_of_hash_eq rfl, List.suffix_refl _, List.suffix_refl _, fun _ hd _ => hd⟩
      · have hne : a ≠ b := fun h => hhash (congrArg hash h)
        obtain ⟨hheighta, -⟩ := (forest.rooted ha).of_parent? hpa
        cases hpb : b.parent? with
        | none =>
            have := (forest.rooted hb).height_of_parent?_none hpb
            omega
        | some pb =>
            obtain ⟨hheightb, -⟩ := (forest.rooted hb).of_parent? hpb
            have hshared : ∀ d : Branch, d.links <:+ a.links → d.links <:+ b.links →
                d.links <:+ pa.links ∧ d.links <:+ pb.links :=
              fun d => shared_of_parent? hheight (forest.rooted ha) (forest.rooted hb) hne hpa hpb
            rw [meet_of_parent? hhash hpa hpb]
            rcases ih (forest.closed a pa ha hpa) (forest.closed b pb hb hpb) (by omega) with
              ⟨fork, hmeet, hfork⟩ | ⟨hmeet, hnone⟩
            · refine .inl ⟨fork, hmeet, ?_, ?_, ?_⟩
              · exact (suffix_of_parent? hpa).mpr (.inr hfork.left)
              · exact (suffix_of_parent? hpb).mpr (.inr hfork.right)
              · intro d hda hdb
                exact hfork.last d (hshared d hda hdb).1 (hshared d hda hdb).2
            · refine .inr ⟨hmeet, ?_⟩
              intro d hda hdb
              exact hnone d (hshared d hda hdb).1 (hshared d hda hdb).2

/-! ## The fork of two branches -/

theorem fork?_of_ancestors {x y : Branch} (hx : a.ancestor? (min a.height b.height) = some x)
    (hy : b.ancestor? (min a.height b.height) = some y) :
    a.fork? b = meet x.tip y.tip x.below y.below := by
  rw [fork?, hx, hy]
  rfl

/-- The fork of two branches is found, or there is nothing shared. -/
theorem fork?_spec (ha : a ∈ forest) (hb : b ∈ forest) :
    (∃ fork, a.fork? b = some fork ∧ IsFork fork a b) ∨
      (a.fork? b = none ∧ ∀ d : Branch, d.links <:+ a.links → ¬d.links <:+ b.links) := by
  have hra : a.Rooted := forest.rooted ha
  have hrb : b.Rooted := forest.rooted hb
  obtain ⟨x, hx, hxheight⟩ := hra.exists_ancestor (Nat.min_le_left a.height b.height)
  obtain ⟨y, hy, hyheight⟩ := hrb.exists_ancestor (Nat.min_le_right a.height b.height)
  have hxa : x.links <:+ a.links := (hra.graded.of_ancestor? hx).2
  have hyb : y.links <:+ b.links := (hrb.graded.of_ancestor? hy).2
  -- What both share is no higher than either, so the cut to one height keeps it.
  have hshared : ∀ d : Branch, d.links <:+ a.links → d.links <:+ b.links →
      d.links <:+ x.links ∧ d.links <:+ y.links := by
    intro d hda hdb
    have hlea : d.height ≤ a.height := (hra.graded.of_suffix hda).2
    have hleb : d.height ≤ b.height := (hrb.graded.of_suffix hdb).2
    constructor
    · exact hra.suffix_of_height_le hda hxa (by omega)
    · exact hrb.suffix_of_height_le hdb hyb (by omega)
  rw [fork?_of_ancestors hx hy]
  rcases meet_spec (forest.mem_of_suffix ha hxa) (forest.mem_of_suffix hb hyb)
      (hxheight.trans hyheight.symm) with ⟨fork, hmeet, hfork⟩ | ⟨hmeet, hnone⟩
  · refine .inl ⟨fork, hmeet, hfork.left.trans hxa, hfork.right.trans hyb, ?_⟩
    intro d hda hdb
    exact hfork.last d (hshared d hda hdb).1 (hshared d hda hdb).2
  · refine .inr ⟨hmeet, ?_⟩
    intro d hda hdb
    exact hnone d (hshared d hda hdb).1 (hshared d hda hdb).2

/-! ## The headers of a branch one by one -/

/-- Every header of the branch as the end of one, last one first. -/
def stages (b : Branch) : List Branch :=
  ChainIndex.stages b.tip b.below

/-- Those above some height. -/
def stagesAbove (b : Branch) (height : Nat) : List Branch :=
  above height b.tip b.below

theorem stages_of_parent?_none (h : b.parent? = none) : b.stages = [b] := by
  obtain ⟨tip, below⟩ := b
  cases below with
  | nil => rfl
  | cons l rest => cases h

theorem stages_of_parent? (h : b.parent? = some parent) : b.stages = b :: parent.stages := by
  obtain ⟨tip, below⟩ := b
  cases below with
  | nil => cases h
  | cons l rest =>
      cases h
      rfl

theorem mem_stages : a ∈ b.stages ↔ a.links <:+ b.links := by
  induction b using induction_parent with
  | lowest b hp =>
      rw [stages_of_parent?_none hp, List.mem_singleton]
      constructor
      · rintro rfl
        exact List.suffix_refl _
      · exact eq_of_suffix_of_parent?_none hp
  | above b parent hp ih =>
      rw [stages_of_parent? hp, List.mem_cons, ih, suffix_of_parent? hp]

theorem Graded.stages_pairwise (h : b.Graded) :
    b.stages.Pairwise fun x y => y.height < x.height := by
  induction b using induction_parent with
  | lowest b hp =>
      rw [stages_of_parent?_none hp]
      exact List.pairwise_singleton _ _
  | above b parent hp ih =>
      obtain ⟨hheight, hparent⟩ := h.of_parent? hp
      rw [stages_of_parent? hp, List.pairwise_cons]
      refine ⟨?_, ih hparent⟩
      intro a ha
      have : a.height ≤ parent.height := (hparent.of_suffix (mem_stages.mp ha)).2
      omega

theorem stagesAbove_of_le (h : b.height ≤ height) : b.stagesAbove height = [] := by
  obtain ⟨tip, below⟩ := b
  cases below with
  | nil => exact if_pos h
  | cons l rest => exact if_pos h

theorem stagesAbove_of_parent? (h : height < b.height) (hp : b.parent? = some parent) :
    b.stagesAbove height = b :: parent.stagesAbove height := by
  obtain ⟨tip, below⟩ := b
  cases below with
  | nil => cases hp
  | cons l rest =>
      cases hp
      exact if_neg (Nat.not_le.mpr h)

/-- A branch is what stands above one of its headers and what ends with it. -/
theorem Graded.stages_eq (hb : b.Graded) (ha : a.links <:+ b.links) :
    b.stages = b.stagesAbove a.height ++ a.stages := by
  induction b using induction_parent with
  | lowest b hp =>
      obtain rfl := eq_of_suffix_of_parent?_none hp ha
      rw [stagesAbove_of_le (Nat.le_refl _), List.nil_append]
  | above b parent hp ih =>
      obtain ⟨hheight, hparent⟩ := hb.of_parent? hp
      rcases (suffix_of_parent? hp).mp ha with rfl | ha
      · rw [stagesAbove_of_le (Nat.le_refl _), List.nil_append]
      · have hle : a.height ≤ parent.height := (hparent.of_suffix ha).2
        rw [stagesAbove_of_parent? (by omega) hp, stages_of_parent? hp, ih hparent ha,
          List.cons_append]

/-- What stands above one of the headers of a branch are the headers of more height. -/
theorem Graded.mem_stagesAbove (hb : b.Graded) (ha : a.links <:+ b.links) :
    d ∈ b.stagesAbove a.height ↔ d.links <:+ b.links ∧ a.height < d.height := by
  have hsplit := hb.stages_eq ha
  have hpairwise := hb.stages_pairwise
  rw [hsplit, List.pairwise_append] at hpairwise
  rw [← mem_stages, hsplit, List.mem_append]
  constructor
  · intro hd
    exact ⟨.inl hd, hpairwise.2.2 d hd a (mem_stages.mpr (List.suffix_refl _))⟩
  · rintro ⟨hd | hd, hlt⟩
    · exact hd
    · have : d.height ≤ a.height := ((hb.of_suffix ha).1.of_suffix (mem_stages.mp hd)).2
      omega

end Branch

namespace Reorganization

open Branch

variable {tip candidate : Branch} {forest : Forest}

/-! ## The change of branch -/

/-- The change is exactly that from the tip to the candidate. -/
structure Exact (r : Reorganization) (tip candidate : Branch) : Prop where
  /-- The fork is on both branches. -/
  shared : r.fork.links <:+ tip.links ∧ r.fork.links <:+ candidate.links
  /-- Nothing higher is. -/
  highest : ∀ d : Branch, d.links <:+ tip.links → d.links <:+ candidate.links →
    d.height ≤ r.fork.height
  /-- From both sides the search for the last common header ends with the fork. -/
  found : tip.fork? candidate = some r.fork ∧ candidate.fork? tip = some r.fork
  /-- What is undone are the headers of the tip's branch above the fork. -/
  disconnect_iff : ∀ d, d ∈ r.disconnect ↔ d.links <:+ tip.links ∧ r.fork.height < d.height
  /-- The last one comes first. -/
  disconnect_order : r.disconnect.Pairwise fun x y => y.height < x.height
  /-- What is connected are the headers of the candidate's branch above the fork. -/
  connect_iff : ∀ d, d ∈ r.connect ↔ d.links <:+ candidate.links ∧ r.fork.height < d.height
  /-- The lowest one comes first. -/
  connect_order : r.connect.Pairwise fun x y => x.height < y.height
  /-- Nothing is undone and connected again. -/
  disjoint : ∀ d ∈ r.disconnect, ∀ e ∈ r.connect, d.hash ≠ e.hash
  /-- Without what is undone the tip's branch ends with the fork. -/
  undone : tip.stages.reverse = r.fork.stages.reverse ++ r.disconnect.reverse
  /-- With what is connected it is the candidate's. -/
  connected : r.fork.stages.reverse ++ r.connect = candidate.stages.reverse

theorem plan_of_fork? {fork : Branch} (h : tip.fork? candidate = some fork) :
    plan tip candidate =
      .ok ⟨fork, tip.stagesAbove fork.height, (candidate.stagesAbove fork.height).reverse⟩ := by
  rw [plan, h]
  rfl

/-- The plan from a fork is exact. -/
theorem exact_of_isFork {fork : Branch} (htip : tip ∈ forest) (hcandidate : candidate ∈ forest)
    (hfound : tip.fork? candidate = some fork) (hfork : IsFork fork tip candidate) :
    Exact ⟨fork, tip.stagesAbove fork.height, (candidate.stagesAbove fork.height).reverse⟩
      tip candidate := by
  have hgtip : tip.Graded := (forest.rooted htip).graded
  have hgcandidate : candidate.Graded := (forest.rooted hcandidate).graded
  have hhighest : ∀ d : Branch, d.links <:+ tip.links → d.links <:+ candidate.links →
      d.height ≤ fork.height := by
    intro d hdtip hdcandidate
    exact ((hgtip.of_suffix hfork.left).1.of_suffix (hfork.last d hdtip hdcandidate)).2
  have horder : ∀ {b : Branch}, b.Graded → fork.links <:+ b.links →
      (b.stagesAbove fork.height).Pairwise fun x y => y.height < x.height := by
    intro b hb hle
    have hpairwise := hb.stages_pairwise
    rw [hb.stages_eq hle, List.pairwise_append] at hpairwise
    exact hpairwise.1
  refine
    { shared := ⟨hfork.left, hfork.right⟩
      highest := hhighest
      found := ⟨hfound, ?_⟩
      disconnect_iff := fun d => hgtip.mem_stagesAbove hfork.left
      disconnect_order := horder hgtip hfork.left
      connect_iff := fun d => List.mem_reverse.trans (hgcandidate.mem_stagesAbove hfork.right)
      connect_order := List.pairwise_reverse.mpr (horder hgcandidate hfork.right)
      disjoint := ?_
      undone := ?_
      connected := ?_ }
  case refine_1 =>
    rcases fork?_spec hcandidate htip with ⟨fork', hfound', hfork'⟩ | ⟨-, hnone⟩
    · rw [hfound', hfork'.eq hfork.symm]
    · exact absurd hfork.left (hnone fork hfork.right)
  case refine_2 =>
    intro d hd e he hhash
    obtain ⟨hdtip, hlt⟩ := (hgtip.mem_stagesAbove hfork.left).mp hd
    obtain ⟨hecandidate, -⟩ := (hgcandidate.mem_stagesAbove hfork.right).mp (List.mem_reverse.mp he)
    obtain rfl := forest.identified d e (forest.mem_of_suffix htip hdtip)
      (forest.mem_of_suffix hcandidate hecandidate) hhash
    exact absurd (hhighest d hdtip hecandidate) (Nat.not_le.mpr hlt)
  case refine_3 => rw [hgtip.stages_eq hfork.left, List.reverse_append]
  case refine_4 => rw [hgcandidate.stages_eq hfork.right, List.reverse_append]

/-- Between any two headers of a forest a change is refused, for the reason that the candidate is
not in the chain, where their branches share nothing, and else planned exactly. -/
theorem plan_exact (htip : tip ∈ forest) (hcandidate : candidate ∈ forest) :
    (plan tip candidate = .error .blockNotInChain ↔
      ∀ d : Branch, d.links <:+ tip.links → ¬d.links <:+ candidate.links) ∧
    ((∃ d : Branch, d.links <:+ tip.links ∧ d.links <:+ candidate.links) →
      ∃ r, plan tip candidate = .ok r ∧ r.Exact tip candidate) := by
  rcases fork?_spec htip hcandidate with ⟨fork, hfound, hfork⟩ | ⟨hfound, hnone⟩
  · have hplan := plan_of_fork? hfound
    refine ⟨⟨?_, ?_⟩, ?_⟩
    · intro herror
      cases hplan.symm.trans herror
    · intro hnone
      exact absurd hfork.right (hnone fork hfork.left)
    · rintro -
      exact ⟨_, hplan, exact_of_isFork htip hcandidate hfound hfork⟩
  · refine ⟨⟨fun _ => hnone, ?_⟩, ?_⟩
    · rintro -
      rw [plan, hfound]
    · rintro ⟨d, hdtip, hdcandidate⟩
      exact absurd hdcandidate (hnone d hdtip)

/-! ## Two branches from one root, and a header that has nothing to do with them -/

namespace Sample

/-- A header above a branch. -/
def headerOn (b : Branch) (time : UInt32) : BlockHeader :=
  ⟨4, b.hash, Digest.zero, time, 0x207fffff, 0⟩

/-- The branch with that header. -/
def grow (b : Branch) (time : UInt32) : Branch :=
  ⟨⟨headerOn b time, (headerOn b time).id, b.height + 1, b.tip.work + Work.ofBits 0x207fffff,
    none⟩, b.links⟩

theorem grown_grow {b : Branch} {time : UInt32} (hb : b.Grown)
    (h : b.height + 1 < Nat.pow 2 32) : (grow b time).Grown := by
  have hextend : b.extend (headerOn b time) none = .ok (grow b time) := by
    rw [extend, fitWord]
    change (if b.height + 1 < Nat.pow 2 32 then Except.ok (b.height + 1) else _) >>= _ = _
    rw [if_pos h]
    rfl
  exact .extend hb hextend

def trunk : Branch :=
  .root ⟨4, Digest.zero, Digest.zero, 10, 0x207fffff, 0⟩

def short : Branch :=
  grow trunk 20

def middle : Branch :=
  grow trunk 21

def long : Branch :=
  grow middle 31

def stranger : Branch :=
  .root ⟨4, Digest.zero, Digest.zero, 11, 0x207fffff, 0⟩

def all : List Branch :=
  [trunk, short, middle, long, stranger]

theorem grown_of_mem_all : ∀ b ∈ all, b.Grown := by
  have htrunk : trunk.Grown := .root
  have hmiddle : middle.Grown := grown_grow htrunk (by decide)
  intro b hb
  simp only [all, List.mem_cons, List.not_mem_nil, or_false] at hb
  rcases hb with rfl | rfl | rfl | rfl | rfl
  · exact htrunk
  · exact grown_grow htrunk (by decide)
  · exact hmiddle
  · exact grown_grow hmiddle (by decide)
  · exact .root

theorem parent_mem_all : ∀ b ∈ all, ∀ parent, b.parent? = some parent → parent ∈ all := by
  intro b hb parent hp
  simp only [all, List.mem_cons, List.not_mem_nil, or_false] at hb
  rcases hb with rfl | rfl | rfl | rfl | rfl
  · cases hp
  · cases hp
    exact List.mem_cons_self
  · cases hp
    exact List.mem_cons_self
  · cases hp
    exact List.mem_cons_of_mem _ (List.mem_cons_of_mem _ List.mem_cons_self)
  · cases hp

theorem identified_all : ∀ a ∈ all, ∀ b ∈ all, a.hash = b.hash → a = b := by
  decide +kernel

def planted : Forest where
  branches b := b ∈ all
  grown := grown_of_mem_all
  closed b parent hb hp := parent_mem_all b hb parent hp
  identified a b ha hb := identified_all a ha b hb

end Sample

/-- The two branches share their root, with the stranger they share nothing. -/
theorem plan_exact_parted :
    (∃ r, plan Sample.long Sample.short = .ok r ∧ r.Exact Sample.long Sample.short) ∧
      plan Sample.long Sample.stranger = .error .blockNotInChain := by
  have hlong : Sample.long ∈ Sample.planted := by
    change Sample.long ∈ Sample.all
    simp [Sample.all]
  have hshort : Sample.short ∈ Sample.planted := by
    change Sample.short ∈ Sample.all
    simp [Sample.all]
  have hstranger : Sample.stranger ∈ Sample.planted := by
    change Sample.stranger ∈ Sample.all
    simp [Sample.all]
  constructor
  · exact (plan_exact hlong hshort).2 ⟨Sample.trunk, ⟨[_, _], rfl⟩, ⟨[_], rfl⟩⟩
  · refine (plan_exact hlong hstranger).1.mpr ?_
    intro d hdlong hdstranger
    obtain rfl := eq_of_suffix_of_parent?_none rfl hdstranger
    exact absurd hdlong (by decide +kernel)

end Reorganization

end StakeChain
