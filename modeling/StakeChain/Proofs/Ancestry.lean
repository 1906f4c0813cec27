/-
Branches and what is below them.

What is known of a branch may end anywhere, but its heights go down by one,
so a header is found by its height alone, from whichever branch through it
the search starts. A branch that was grown from a root, one header at a time,
is known down to height zero, so it has a header at each height up to its
own.
-/
import StakeChain.Chain.Branch
import StakeChain.Proofs.Outcome

namespace StakeChain

/-- The headers below go down one height at a time, to one of height zero. -/
inductive Link.Rooted : Link → List Link → Prop
  | root {l : Link} : l.height = 0 → Rooted l []
  | above {l p : Link} {rest : List Link} :
      l.height = p.height + 1 → Rooted p rest → Rooted l (p :: rest)

namespace Branch

/-- The branch is known down to its root. -/
def Rooted (b : Branch) : Prop :=
  b.tip.Rooted b.below

theorem rooted_root (header : BlockHeader) : (root header).Rooted :=
  .root rfl

theorem Rooted.extend {b b' : Branch} {header : BlockHeader} {stake : Option StakeRecord}
    (h : b.Rooted) (he : b.extend header stake = .ok b') : b'.Rooted := by
  obtain ⟨height, hheight, he⟩ := Verdict.bind_eq_ok.mp he
  cases he
  rw [fitWord] at hheight
  split at hheight
  · cases hheight
    exact .above rfl h
  · cases hheight

/-! ## Parents -/

theorem eq_of_links_eq {a b : Branch} (h : a.links = b.links) : a = b := by
  obtain ⟨htip, hbelow⟩ := List.cons.inj h
  cases a
  cases b
  cases htip
  cases hbelow
  rfl

theorem links_of_parent? {b parent : Branch} (h : b.parent? = some parent) :
    b.links = b.tip :: parent.links := by
  obtain ⟨tip, below⟩ := b
  cases below with
  | nil => cases h
  | cons l rest =>
      cases h
      rfl

theorem links_of_parent?_none {b : Branch} (h : b.parent? = none) : b.links = [b.tip] := by
  obtain ⟨tip, below⟩ := b
  cases below with
  | nil => rfl
  | cons l rest => cases h

/-- What holds of the last known header, and of a branch if it holds of its parent, holds of all
branches. -/
theorem induction_parent {motive : Branch → Prop}
    (lowest : ∀ b : Branch, b.parent? = none → motive b)
    (above : ∀ b parent : Branch, b.parent? = some parent → motive parent → motive b)
    (b : Branch) : motive b := by
  obtain ⟨tip, below⟩ := b
  induction below generalizing tip with
  | nil => exact lowest _ rfl
  | cons l rest ih => exact above _ ⟨l, rest⟩ rfl (ih l)

/-- A branch ends with itself, and else with what its parent ends with. -/
theorem suffix_of_parent? {a b parent : Branch} (h : b.parent? = some parent) :
    a.links <:+ b.links ↔ a = b ∨ a.links <:+ parent.links := by
  rw [links_of_parent? h, List.suffix_cons_iff, ← links_of_parent? h]
  constructor
  · exact Or.imp_left eq_of_links_eq
  · exact Or.imp_left (congrArg links)

theorem parent_suffix {b parent : Branch} (h : b.parent? = some parent) :
    parent.links <:+ b.links :=
  (suffix_of_parent? h).mpr (.inr (List.suffix_refl _))

theorem eq_of_suffix_of_parent?_none {a b : Branch} (h : b.parent? = none)
    (ha : a.links <:+ b.links) : a = b := by
  rw [links_of_parent?_none h, List.suffix_cons_iff, List.suffix_nil] at ha
  rcases ha with ha | ha
  · exact eq_of_links_eq (ha.trans (links_of_parent?_none h).symm)
  · cases ha

/-- Something holds of every header of the branch and the one before it. -/
def EachStep (holds : Branch → Branch → Prop) (b : Branch) : Prop :=
  ∀ a parent : Branch, a.links <:+ b.links → a.parent? = some parent → holds parent a

namespace EachStep

variable {holds other : Branch → Branch → Prop} {a b parent : Branch}

theorem of_parent?_none (h : b.parent? = none) : b.EachStep holds := by
  intro a parent ha hp
  rw [eq_of_suffix_of_parent?_none h ha, h] at hp
  cases hp

theorem of_parent? (hp : b.parent? = some parent) (h : parent.EachStep holds)
    (hlast : holds parent b) : b.EachStep holds := by
  intro a parent' ha hp'
  rcases (suffix_of_parent? hp).mp ha with rfl | ha
  · cases hp.symm.trans hp'
    exact hlast
  · exact h a parent' ha hp'

theorem of_suffix (h : b.EachStep holds) (ha : a.links <:+ b.links) : a.EachStep holds := by
  intro c parent hc
  exact h c parent (hc.trans ha)

/-- What holds at one header of the branch and goes from each to the next holds at the last. -/
theorem reaches {P : Branch → Prop} (h : b.EachStep fun parent c => P parent → P c)
    (ha : a.links <:+ b.links) (hP : P a) : P b := by
  induction b using induction_parent with
  | lowest b hp =>
      cases eq_of_suffix_of_parent?_none hp ha
      exact hP
  | above b parent hp ih =>
      rcases (suffix_of_parent? hp).mp ha with rfl | ha
      · exact hP
      · exact h b parent (List.suffix_refl _) hp (ih (h.of_suffix (parent_suffix hp)) ha)

theorem imp (h : b.EachStep holds)
    (himp : ∀ parent a : Branch, a.parent? = some parent → holds parent a → other parent a) :
    b.EachStep other := by
  intro a parent ha hp
  exact himp parent a hp (h a parent ha hp)

end EachStep

theorem length_lt_of_suffix {a b : Branch} (ha : a.links <:+ b.links) (h : a.height < b.height) :
    a.links.length < b.links.length := by
  refine Nat.lt_of_le_of_ne ha.length_le ?_
  intro hlength
  cases eq_of_links_eq (ha.eq_of_length hlength)
  exact Nat.lt_irrefl _ h

/-! ## Ancestors -/

theorem exists_descend {l : Link} {below : List Link} (h : l.Rooted below) {height : Nat}
    (hle : height ≤ l.height) : ∃ a, descend height l below = some a ∧ a.height = height := by
  induction h with
  | @root l hl =>
      refine ⟨⟨l, []⟩, if_pos (by omega), ?_⟩
      change l.height = height
      omega
  | @above l p rest hl _ ih =>
      rw [descend]
      by_cases hheight : l.height ≤ height
      · exact ⟨_, if_pos hheight, Nat.le_antisymm hheight hle⟩
      · rw [if_neg hheight]
        exact ih (by omega)

/-- There is a header at every height up to that of the branch. -/
theorem Rooted.exists_ancestor {b : Branch} (h : b.Rooted) {height : Nat}
    (hle : height ≤ b.height) : ∃ a, b.ancestor? height = some a ∧ a.height = height := by
  rw [ancestor?, if_neg (Nat.not_lt.mpr hle)]
  exact exists_descend h hle

/-! ## Heights that go down by one -/

end Branch

/-- The headers below go down one height at a time, as far as they are known. -/
inductive Link.Graded : Link → List Link → Prop
  | lowest {l : Link} : Graded l []
  | above {l p : Link} {rest : List Link} :
      l.height = p.height + 1 → Graded p rest → Graded l (p :: rest)

namespace Branch

variable {a b parent : Branch} {height low : Nat}

/-- The heights of the branch go down by one. -/
def Graded (b : Branch) : Prop :=
  b.tip.Graded b.below

theorem Rooted.graded (h : b.Rooted) : b.Graded := by
  obtain ⟨tip, below⟩ := b
  change tip.Rooted below at h
  change tip.Graded below
  induction h with
  | root _ => exact .lowest
  | above hl _ ih => exact .above hl ih

theorem Graded.of_parent? (h : b.Graded) (hp : b.parent? = some parent) :
    b.height = parent.height + 1 ∧ parent.Graded := by
  obtain ⟨tip, below⟩ := b
  cases h with
  | lowest => cases hp
  | above hl hrest =>
      cases hp
      exact ⟨hl, hrest⟩

theorem Graded.of_suffix (h : b.Graded) (ha : a.links <:+ b.links) :
    a.Graded ∧ a.height ≤ b.height := by
  induction b using induction_parent with
  | lowest b hp =>
      obtain rfl := eq_of_suffix_of_parent?_none hp ha
      exact ⟨h, Nat.le_refl _⟩
  | above b parent hp ih =>
      obtain ⟨hheight, hparent⟩ := h.of_parent? hp
      rcases (suffix_of_parent? hp).mp ha with rfl | ha
      · exact ⟨h, Nat.le_refl _⟩
      · obtain ⟨hgraded, hle⟩ := ih hparent ha
        exact ⟨hgraded, by omega⟩

theorem ancestor?_self : b.ancestor? b.height = some b := by
  obtain ⟨tip, below⟩ := b
  rw [ancestor?, if_neg (Nat.lt_irrefl _)]
  cases below with
  | nil => exact if_pos (Nat.le_refl _)
  | cons l rest => exact if_pos (Nat.le_refl _)

theorem ancestor?_of_lt (h : b.height < height) : b.ancestor? height = none :=
  if_pos h

theorem ancestor?_of_parent?_none (hp : b.parent? = none) (h : height < b.height) :
    b.ancestor? height = none := by
  obtain ⟨tip, below⟩ := b
  cases below with
  | nil =>
      rw [ancestor?, if_neg (Nat.not_lt.mpr (Nat.le_of_lt h))]
      exact if_neg (Nat.not_le.mpr h)
  | cons l rest => cases hp

/-- Below its last header a branch has the ancestors of its parent. -/
theorem Graded.ancestor?_of_parent? (hg : b.Graded) (hp : b.parent? = some parent)
    (h : height < b.height) : b.ancestor? height = parent.ancestor? height := by
  obtain ⟨hheight, -⟩ := hg.of_parent? hp
  obtain ⟨tip, below⟩ := b
  cases below with
  | nil => cases hp
  | cons l rest =>
      cases hp
      have hle : ¬height > (Branch.mk l rest).height := by omega
      rw [ancestor?, if_neg (Nat.not_lt.mpr (Nat.le_of_lt h)), ancestor?, if_neg hle, descend]
      exact if_neg (Nat.not_le.mpr h)

/-- The ancestor at a height has that height, and the branch goes through it. -/
theorem Graded.of_ancestor? (hg : b.Graded) (h : b.ancestor? height = some a) :
    a.height = height ∧ a.links <:+ b.links := by
  induction b using induction_parent with
  | lowest b hp =>
      rcases Nat.lt_trichotomy height b.height with hlt | rfl | hgt
      · rw [ancestor?_of_parent?_none hp hlt] at h
        cases h
      · cases ancestor?_self.symm.trans h
        exact ⟨rfl, List.suffix_refl _⟩
      · rw [ancestor?_of_lt hgt] at h
        cases h
  | above b parent hp ih =>
      rcases Nat.lt_trichotomy height b.height with hlt | rfl | hgt
      · rw [hg.ancestor?_of_parent? hp hlt] at h
        obtain ⟨hheight, hsuffix⟩ := ih (hg.of_parent? hp).2 h
        exact ⟨hheight, (suffix_of_parent? hp).mpr (.inr hsuffix)⟩
      · cases ancestor?_self.symm.trans h
        exact ⟨rfl, List.suffix_refl _⟩
      · rw [ancestor?_of_lt hgt] at h
        cases h

/-- From every branch through it a header is found by its height. -/
theorem Graded.ancestor?_of_suffix (hg : b.Graded) (ha : a.links <:+ b.links)
    (h : height ≤ a.height) : b.ancestor? height = a.ancestor? height := by
  induction b using induction_parent with
  | lowest b hp => rw [eq_of_suffix_of_parent?_none hp ha]
  | above b parent hp ih =>
      obtain ⟨hheight, hparent⟩ := hg.of_parent? hp
      rcases (suffix_of_parent? hp).mp ha with rfl | ha
      · rfl
      · have hle : a.height ≤ parent.height := (hparent.of_suffix ha).2
        rw [hg.ancestor?_of_parent? hp (by omega)]
        exact ih hparent ha

/-- Where the branch is not known it is not known further down. -/
theorem Graded.ancestor?_eq_none_of_le (hg : b.Graded) (h : b.ancestor? height = none)
    (hheight : height ≤ b.height) (hlow : low ≤ height) : b.ancestor? low = none := by
  have hlt : height < b.height := by
    rcases Nat.lt_or_eq_of_le hheight with hlt | rfl
    · exact hlt
    · cases ancestor?_self.symm.trans h
  induction b using induction_parent with
  | lowest b hp => exact ancestor?_of_parent?_none hp (by omega)
  | above b parent hp ih =>
      obtain ⟨hb, hparent⟩ := hg.of_parent? hp
      rw [hg.ancestor?_of_parent? hp (by omega)]
      rw [hg.ancestor?_of_parent? hp hlt] at h
      have hne : height ≠ parent.height := by
        rintro rfl
        cases ancestor?_self.symm.trans h
      exact ih hparent h (by omega) (by omega)

end Branch

end StakeChain
