/-
The states that are kept from earlier questions.

States that were found once are kept by the hash of their window's last
header. A question goes down the windows until it finds a state, and then up
again, keeping what it finds. Where headers are identified by their hashes
every state that is kept is the one that follows from the headers alone, so
it does not matter which questions came before, along which branches and in
which order.
-/
import StakeChain.Proofs.Windows

namespace StakeChain

namespace Deployment

variable {p : Params} {index k : Nat} {d : DeploymentParams} {a b window : Branch} {m : UInt32}

/-! ## Questions and the states they leave -/

section Questions

variable {α β : Type} {I J K : Cache → Prop} {q : Query α} {r : Except Fault α}

/-- Asked with known states of one kind a question has this result, and it leaves known states of
another kind. -/
def Yields (I J : Cache → Prop) (q : Query α) (r : Except Fault α) : Prop :=
  ∀ known, I known → q.run' known = r ∧ ∀ a left, q.run known = .ok (a, left) → J left

theorem Yields.pure {a : α} (h : ∀ known, I known → J known) : Yields I J (pure a) (.ok a) := by
  intro known hknown
  refine ⟨rfl, ?_⟩
  intro a' left hrun
  cases hrun
  exact h known hknown

theorem Yields.lift : Yields I I (liftM r) r := by
  intro known hknown
  cases r with
  | error e => exact ⟨rfl, nofun⟩
  | ok a =>
      refine ⟨rfl, ?_⟩
      intro a' left hrun
      cases hrun
      exact hknown

theorem Yields.bind {f : α → Query β} {g : α → Except Fault β} (hq : Yields I J q r)
    (hf : ∀ a, r = .ok a → Yields J K (f a) (g a)) : Yields I K (q >>= f) (r >>= g) := by
  intro known hknown
  obtain ⟨hresult, hleft⟩ := hq known hknown
  have hbind : (q >>= f).run known = q.run known >>= fun x => (f x.1).run x.2 := rfl
  rw [StateT.run'_eq] at hresult
  cases hrun : q.run known with
  | error e =>
      rw [hrun] at hbind hresult
      cases hresult
      rw [StateT.run'_eq, hbind]
      exact ⟨rfl, nofun⟩
  | ok x =>
      rw [hrun] at hbind hresult
      cases hresult
      rw [StateT.run'_eq, hbind]
      exact hf x.1 rfl x.2 (hleft x.1 x.2 hrun)

theorem Yields.remember {s : ThresholdState}
    (h : ∀ known, I known → J (((index, window.hash), s) :: known)) :
    Yields I J (remember index window s) (.ok s) := by
  intro known hknown
  refine ⟨rfl, ?_⟩
  intro a left hrun
  cases hrun
  exact h known hknown

end Questions

/-- Known states, before and after windows are looked at, that are right about the windows of a
branch. -/
structure Right (p : Params) (index : Nat) (d : DeploymentParams) (b : Branch)
    (before after : Cache → Prop) : Prop where
  found : ∀ a k, a.links <:+ b.links → a.height + 1 = k * p.minerConfirmationWindow.toNat →
    ∀ known, before known → ∀ s, known.lookup (index, a.hash) = some s →
      shortAfter p d a k = .ok s
  weaken : ∀ known, before known → after known
  kept : ∀ a k, a.links <:+ b.links → a.height + 1 = k * p.minerConfirmationWindow.toNat →
    ∀ s, shortAfter p d a k = .ok s →
      ∀ known, after known → after (((index, a.hash), s) :: known)

namespace Right

variable {before after : Cache → Prop} {later : List (Branch × Nat)}
  {g : ThresholdState → Except Fault ThresholdState}

/-- One window is gone through. -/
theorem yields_advance (h : Right p index d b before after) (ha : a.links <:+ b.links)
    (hk : a.height + 1 = (k + 1) * p.minerConfirmationWindow.toNat)
    (hm : a.medianTime p.medianTimeSpan.toNat = .ok m)
    (hlate : ¬(m.toNat : Int) < d.startTime.toInt)
    (hlater : ∀ s, shortAfter p d a (k + 1) = .ok s →
      Yields after after (advance p index d s later) (g s))
    {s : ThresholdState} (hs : shortAfter p d a k = .ok s) :
    Yields after after (advance p index d s ((a, m.toNat) :: later))
      (next p d a m.toNat s >>= g) := by
  have hstate : shortAfter p d a (k + 1) = next p d a m.toNat s := by
    rw [shortAfter_of_late (window?_self hk) hm hlate, hs]
    rfl
  rw [advance]
  refine Yields.lift.bind fun s' hs' => ?_
  have hs' : shortAfter p d a (k + 1) = .ok s' := hstate.trans hs'
  exact (Yields.remember (h.kept a (k + 1) ha hk s' hs')).bind fun s'' hs'' => by
    cases hs''
    exact hlater s' hs'

/-- The windows that have to be looked at, down from one on, and those above are gone through. -/
def walk (p : Params) (index : Nat) (d : DeploymentParams) (fuel : Nat) (window : Option Branch)
    (later : List (Branch × Nat)) : Query ThresholdState :=
  pending p index d fuel window later >>= fun x => advance p index d x.1 x.2

theorem walk_none {fuel : Nat} :
    walk p index d fuel none later = advance p index d .defined later := by
  cases fuel with
  | zero => rfl
  | succ fuel => rfl

theorem run_walk {fuel : Nat} {known : Cache} :
    (walk p index d (fuel + 1) (some a) later).run known =
      match known.lookup (index, a.hash) with
      | some s => (advance p index d s later).run known
      | none => a.medianTime p.medianTimeSpan.toNat >>= fun median =>
          if median.toNat < d.startTime.toInt then
            (advance p index d .defined later).run (((index, a.hash), .defined) :: known)
          else
            (walk p index d fuel (windowBefore? p a) ((a, median.toNat) :: later)).run known := by
  rw [walk, StateT.run_bind, pending, StateT.run_bind]
  change (match known.lookup (index, a.hash) with
    | some s => _
    | none => _ : Query _).run known >>= _ = _
  cases known.lookup (index, a.hash) with
  | some s => rfl
  | none =>
      cases a.medianTime p.medianTimeSpan.toNat with
      | error e => rfl
      | ok median =>
          change (if median.toNat < d.startTime.toInt then _ else _ : Query _).run known >>= _ =
            if median.toNat < d.startTime.toInt then _ else _
          split
          · rfl
          · rfl

theorem run_walk_found {fuel : Nat} {known : Cache} {s : ThresholdState}
    (hs : known.lookup (index, a.hash) = some s) :
    (walk p index d (fuel + 1) (some a) later).run known =
      (advance p index d s later).run known := by
  rw [run_walk, hs]

theorem run_walk_fault {fuel : Nat} {known : Cache} {e : Fault}
    (hnone : known.lookup (index, a.hash) = none)
    (hm : a.medianTime p.medianTimeSpan.toNat = .error e) :
    (walk p index d (fuel + 1) (some a) later).run known = .error e := by
  rw [run_walk, hnone, hm]
  rfl

theorem run_walk_early {fuel : Nat} {known : Cache}
    (hnone : known.lookup (index, a.hash) = none)
    (hm : a.medianTime p.medianTimeSpan.toNat = .ok m)
    (hearly : (m.toNat : Int) < d.startTime.toInt) :
    (walk p index d (fuel + 1) (some a) later).run known =
      (advance p index d .defined later).run (((index, a.hash), .defined) :: known) := by
  rw [run_walk, hnone, hm]
  exact if_pos hearly

theorem run_walk_late {fuel : Nat} {known : Cache}
    (hnone : known.lookup (index, a.hash) = none)
    (hm : a.medianTime p.medianTimeSpan.toNat = .ok m)
    (hlate : ¬(m.toNat : Int) < d.startTime.toInt) :
    (walk p index d (fuel + 1) (some a) later).run known =
      (walk p index d fuel (windowBefore? p a) ((a, m.toNat) :: later)).run known := by
  rw [run_walk, hnone, hm]
  exact if_neg hlate

/-- From a window down, and then through the later ones, the states are those of the recursion
that stops before the start. -/
theorem yields_walk (h : Right p index d b before after) (hg : b.Graded)
    (hperiod : 0 < p.minerConfirmationWindow.toNat) {fuel : Nat} (hfuel : a.links.length ≤ fuel)
    (ha : a.links <:+ b.links) (hk : a.height + 1 = k * p.minerConfirmationWindow.toNat)
    (hlater : ∀ s, shortAfter p d a k = .ok s →
      Yields after after (advance p index d s later) (g s)) :
    Yields before after (walk p index d fuel (some a) later) (shortAfter p d a k >>= g) := by
  induction fuel generalizing a k later g with
  | zero => cases hfuel
  | succ fuel ih =>
      obtain ⟨j, rfl⟩ : ∃ j, k = j + 1 := Nat.exists_eq_succ_of_ne_zero (by rintro rfl; omega)
      have hself : window? p a (j + 1) = some a := window?_self hk
      intro known hknown
      rw [StateT.run'_eq]
      cases hlookup : known.lookup (index, a.hash) with
      | some s =>
          have hs := h.found a (j + 1) ha hk known hknown s hlookup
          rw [run_walk_found hlookup, hs]
          exact hlater s hs known (h.weaken known hknown)
      | none =>
          cases hm : a.medianTime p.medianTimeSpan.toNat with
          | error e =>
              rw [run_walk_fault hlookup hm, shortAfter_of_fault hself hm]
              exact ⟨rfl, nofun⟩
          | ok m =>
              by_cases hearly : (m.toNat : Int) < d.startTime.toInt
              · have hs := shortAfter_of_early hself hm hearly
                rw [run_walk_early hlookup hm hearly, hs]
                exact hlater .defined hs _
                  (h.kept a (j + 1) ha hk .defined hs known (h.weaken known hknown))
              · rw [run_walk_late hlookup hm hearly, windowBefore?_eq hperiod hk,
                  shortAfter_of_late hself hm hearly]
                have hstep : ∀ s, shortAfter p d a j = .ok s →
                    Yields after after (advance p index d s ((a, m.toNat) :: later))
                      (next p d a m.toNat s >>= g) :=
                  fun s hs => h.yields_advance ha hk hm hearly hlater hs
                have hag : a.Graded := (hg.of_suffix ha).1
                rw [bind_assoc]
                cases hw : window? p a j with
                | none =>
                    have hs := shortAfter_of_none (d := d) hw
                    rw [walk_none, hs]
                    exact hstep .defined hs known (h.weaken known hknown)
                | some w =>
                    obtain ⟨hheight, hsuffix⟩ := height_of_window? hag hperiod hw
                    have hsame : shortAfter p d a j = shortAfter p d w j :=
                      shortAfter_of_suffix hag hsuffix (Nat.le_of_eq hheight.symm)
                    have hlt : w.height < a.height := by
                      rw [Nat.succ_mul] at hk
                      omega
                    have hshorter := Branch.length_lt_of_suffix hsuffix hlt
                    rw [hsame] at hstep ⊢
                    exact ih (by omega) (hsuffix.trans ha) hheight hstep known hknown

/-- For the block after a branch that is gone through. -/
theorem yields_branch (h : Right p index d b before after) (hg : b.Graded)
    (hperiod : 0 < p.minerConfirmationWindow.toNat) :
    Yields before after
      (liftM (lastWindow? p b) >>= fun window => walk p index d b.links.length window [])
      (fitWord 32 (b.height + 1) >>= fun height =>
        shortAfter p d b (height / p.minerConfirmationWindow.toNat)) := by
  rw [lastWindow?_eq hperiod]
  cases fitWord 32 (b.height + 1) with
  | error e => exact fun _ _ => ⟨rfl, nofun⟩
  | ok height =>
      refine (Yields.lift (r := .ok (window? p b (height / p.minerConfirmationWindow.toNat)))).bind
        (g := fun _ => shortAfter p d b (height / p.minerConfirmationWindow.toNat)) ?_
      intro window hwindow
      cases hwindow
      generalize height / p.minerConfirmationWindow.toNat = k
      cases hw : window? p b k with
      | none =>
          rw [walk_none, shortAfter_of_none hw]
          exact .pure h.weaken
      | some w =>
          obtain ⟨hheight, hsuffix⟩ := height_of_window? hg hperiod hw
          rw [shortAfter_of_suffix hg hsuffix (Nat.le_of_eq hheight.symm),
            ← bind_pure (shortAfter p d w k)]
          exact h.yields_walk hg hperiod hsuffix.length_le hsuffix hheight
            fun s _ => .pure fun _ hknown => hknown

end Right

/-- A question is answered by the recursion that stops before the start. -/
theorem yields_state {before after : Cache → Prop} {previous : Option Branch}
    (hperiod : 0 < p.minerConfirmationWindow.toNat)
    (hgraded : ∀ b, previous = some b → b.Graded)
    (hweaken : ∀ known, before known → after known)
    (hright : ∀ d b, p.deployment? index = some d → previous = some b →
      Right p index d b before after) :
    Yields before after (state p index previous) (stateBy (shortAfter p) p index previous) := by
  rw [state, stateBy]
  cases hd : p.deployment? index with
  | none => exact .pure hweaken
  | some d =>
      by_cases halways : d.startTime = DeploymentParams.alwaysActiveTime
      · simp only [if_pos halways]
        exact .pure hweaken
      · simp only [if_neg halways]
        cases hprevious : previous with
        | none => exact .pure hweaken
        | some b =>
            exact (hright d b hd hprevious).yields_branch (hgraded b hprevious) hperiod

/-- A question that is the first one needs nothing of the hashes. -/
theorem right_fresh : Right p index d b (· = []) fun _ => True where
  found _ _ _ _ known hknown s hs := by
    cases hknown
    cases hs
  weaken _ _ := trivial
  kept _ _ _ _ _ _ _ _ := trivial

theorem state_fresh {previous : Option Branch} (hperiod : 0 < p.minerConfirmationWindow.toNat)
    (hgraded : ∀ b, previous = some b → b.Graded) :
    (state p index previous).run' [] = stateBy (shortAfter p) p index previous :=
  (yields_state hperiod hgraded (fun _ _ => trivial) (fun _ _ _ _ => right_fresh) [] rfl).1

end Deployment

/-! ## Trees of headers -/

/-- A header without what was worked and staked for it. -/
def Link.bare (l : Link) : Link :=
  { l with work := 0, stake := none }

namespace Branch

/-- A branch without what was worked and staked for its headers. -/
def bare (b : Branch) : Branch :=
  ⟨b.tip.bare, b.below.map Link.bare⟩

theorem bare_height {b : Branch} : b.bare.height = b.height :=
  rfl

theorem bare_links {b : Branch} : b.bare.links = b.links.map Link.bare :=
  rfl

theorem bare_descend {height : Nat} {tip : Link} {below : List Link} :
    descend height tip.bare (below.map Link.bare) = (descend height tip below).map bare := by
  induction below generalizing tip with
  | nil =>
      change (if tip.height ≤ height then _ else _) = Option.map bare (if tip.height ≤ height then _ else _)
      split
      · rfl
      · rfl
  | cons l rest ih =>
      rw [List.map_cons, descend, descend]
      by_cases hle : tip.height ≤ height
      · rw [if_pos hle]
        exact if_pos hle
      · rw [if_neg hle, ← ih]
        exact if_neg hle

theorem bare_ancestor? {b : Branch} {height : Nat} :
    b.bare.ancestor? height = (b.ancestor? height).map bare := by
  rw [ancestor?, ancestor?]
  by_cases h : height > b.height
  · rw [if_pos h]
    exact if_pos h
  · rw [if_neg h]
    exact (if_neg h).trans bare_descend

theorem bare_medianTime {b : Branch} {span : Nat} :
    b.bare.medianTime span = b.medianTime span := by
  have htimes : b.bare.times span = b.times span := by
    rw [times, times, bare_links, ← List.map_take, List.map_map]
    rfl
  rw [medianTime, medianTime, htimes]

end Branch

/-- A tree of headers: with a header it has all that are known before it, their heights go down by
one, and headers of one hash are the same ones, with the same ones before them. -/
structure HeaderTree where
  /-- The branches that end with the headers of the tree. -/
  branches : Branch → Prop
  graded : ∀ b, branches b → b.Graded
  closed : ∀ b parent, branches b → b.parent? = some parent → branches parent
  identified : ∀ a b, branches a → branches b → a.hash = b.hash → a.bare = b.bare

instance : Membership Branch HeaderTree :=
  ⟨fun tree b => tree.branches b⟩

theorem HeaderTree.mem_of_suffix {tree : HeaderTree} {a b : Branch} (hb : b ∈ tree)
    (ha : a.links <:+ b.links) : a ∈ tree := by
  induction b using Branch.induction_parent with
  | lowest b hp =>
      cases Branch.eq_of_suffix_of_parent?_none hp ha
      exact hb
  | above b parent hp ih =>
      rcases (Branch.suffix_of_parent? hp).mp ha with rfl | ha
      · exact hb
      · exact ih (tree.closed b parent hb hp) ha

namespace Deployment

variable {p : Params} {index k : Nat} {d : DeploymentParams} {a b window : Branch}
  {tree : HeaderTree} {known left : Cache}

theorem bare_countVotes {bit : UInt8} {count : Nat} {headers : List Link} :
    countVotes bit count (headers.map Link.bare) = countVotes bit count headers := by
  induction headers generalizing count with
  | nil => rfl
  | cons l rest ih =>
      rw [List.map_cons, countVotes, countVotes]
      exact congrArg _ (funext fun vote => ih)

theorem bare_next : next p d window.bare = next p d window := by
  have hvotes : votes window.bare p.minerConfirmationWindow.toNat d.bit =
      votes window p.minerConfirmationWindow.toNat d.bit := by
    rw [votes, votes, Branch.bare_links, ← List.map_take, bare_countVotes]
  funext median s
  cases s with
  | started => rw [next, next, hvotes]
  | defined => rfl
  | lockedIn => rfl
  | active => rfl
  | failed => rfl

theorem bare_window? : window? p b.bare k = (window? p b k).map Branch.bare := by
  cases k with
  | zero => rfl
  | succ j => exact Branch.bare_ancestor?

/-- The states do not depend on what was worked and staked. -/
theorem bare_shortAfter : shortAfter p d b.bare k = shortAfter p d b k := by
  induction k with
  | zero => rfl
  | succ j ih =>
      rw [shortAfter, shortAfter, bare_window?, ih]
      cases window? p b (j + 1) with
      | none => rfl
      | some window =>
          change (window.bare.medianTime _ >>= fun median =>
            if median.toNat < d.startTime.toInt then _
            else shortAfter p d b j >>= next p d window.bare median.toNat) = _
          rw [Branch.bare_medianTime, bare_next]

/-- The known states are right: each that is kept for the end of a window of the tree is the one
after that window. -/
def Faithful (p : Params) (tree : HeaderTree) (known : Cache) : Prop :=
  ∀ index d, p.deployment? index = some d → ∀ a ∈ tree, ∀ k,
    a.height + 1 = k * p.minerConfirmationWindow.toNat →
      ∀ s, known.lookup (index, a.hash) = some s → shortAfter p d a k = .ok s

theorem faithful_nil : Faithful p tree [] := by
  intro _ _ _ _ _ _ _ _ hs
  cases hs

theorem Faithful.remember (h : Faithful p tree known)
    (hperiod : 0 < p.minerConfirmationWindow.toNat) (hd : p.deployment? index = some d)
    (ha : a ∈ tree) (hk : a.height + 1 = k * p.minerConfirmationWindow.toNat)
    {s : ThresholdState} (hs : shortAfter p d a k = .ok s) :
    Faithful p tree (((index, a.hash), s) :: known) := by
  intro index' d' hd' a' ha' k' hk' s' hlookup
  rw [List.lookup_cons] at hlookup
  cases hkey : (index', a'.hash) == (index, a.hash) with
  | true =>
      -- the new state is asked for, so the header is the same but for work and stake
      rw [hkey] at hlookup
      cases hlookup
      obtain ⟨rfl, hhash⟩ := Prod.mk.inj (eq_of_beq hkey)
      cases hd.symm.trans hd'
      have hbare : a'.bare = a.bare := tree.identified a' a ha' ha hhash
      have hheight : a'.height = a.height := by
        rw [← Branch.bare_height, hbare, Branch.bare_height]
      obtain rfl : k' = k := Nat.eq_of_mul_eq_mul_right hperiod (by omega)
      rw [← bare_shortAfter, hbare, bare_shortAfter]
      exact hs
  | false =>
      rw [hkey] at hlookup
      exact h index' d' hd' a' ha' k' hk' s' hlookup

theorem right_faithful (hperiod : 0 < p.minerConfirmationWindow.toNat)
    (hd : p.deployment? index = some d) (hb : b ∈ tree) :
    Right p index d b (Faithful p tree) (Faithful p tree) where
  found a k ha hk _ hknown := hknown index d hd a (tree.mem_of_suffix hb ha) k hk
  weaken _ hknown := hknown
  kept _ _ ha hk _ hs _ hknown := hknown.remember hperiod hd (tree.mem_of_suffix hb ha) hk hs

/-- From right states a question about the tree gets the state of the recursion that stops early,
and it leaves right states. -/
theorem yields_faithful {previous : Option Branch}
    (hperiod : 0 < p.minerConfirmationWindow.toNat)
    (htree : ∀ b, previous = some b → b ∈ tree) :
    Yields (Faithful p tree) (Faithful p tree) (state p index previous)
      (stateBy (shortAfter p) p index previous) :=
  yields_state hperiod (fun b hb => tree.graded b (htree b hb)) (fun _ hknown => hknown)
    fun _ b hd hb => right_faithful hperiod hd (htree b hb)

/-! ## Many questions -/

/-- Questions about deployments, for the blocks after branches, one after the other. -/
def ask (p : Params) : List (Nat × Option Branch) → Query Unit
  | [] => pure ()
  | (index, previous) :: rest => do
      let _ ← state p index previous
      ask p rest

theorem faithful_of_ask (hperiod : 0 < p.minerConfirmationWindow.toNat)
    {asked : List (Nat × Option Branch)}
    (htree : ∀ q ∈ asked, ∀ b, q.2 = some b → b ∈ tree) (h : Faithful p tree known)
    (hasked : (ask p asked).run known = .ok ((), left)) : Faithful p tree left := by
  induction asked generalizing known with
  | nil =>
      cases hasked
      exact h
  | cons q rest ih =>
      obtain ⟨index, previous⟩ := q
      rw [List.forall_mem_cons] at htree
      obtain ⟨x, hstate, hrest⟩ := Verdict.bind_eq_ok.mp hasked
      have hnext := (yields_faithful hperiod htree.1 known h).2 x.1 x.2 hstate
      exact ih htree.2 hnext hrest

/-- Along a tree of headers on which medians do not fall, whatever was asked about it before, the
state is that on fresh known states. It is the state of the plain recursion over the windows,
exactly unless the time of the deployment has run out before its start. And there is a state, if
the deployment votes with a bit that there is. -/
theorem state_after_questions (p : Params) (hperiod : 0 < p.minerConfirmationWindow.toNat)
    (tree : HeaderTree) (hrise : ∀ b ∈ tree, b.MediansRise p.medianTimeSpan.toNat)
    (asked : List (Nat × Option Branch)) (hasked : ∀ q ∈ asked, ∀ b, q.2 = some b → b ∈ tree)
    (known : Cache) (hknown : (ask p asked).run [] = .ok ((), known))
    (index : Nat) (previous : Option Branch) (hprevious : ∀ b, previous = some b → b ∈ tree) :
    (state p index previous).run' known = (state p index previous).run' [] ∧
      ((state p index previous).run' known = expected p index previous ↔
        ¬Overdue p index previous) ∧
      (0 < p.medianTimeSpan.toNat →
        (∀ d, p.deployment? index = some d → d.bit.toNat < 32) →
          (∀ b, previous = some b → b.height + 1 < 2 ^ 32) →
            ∃ s, (state p index previous).run' known = .ok s) := by
  have hfaithful : Faithful p tree known :=
    faithful_of_ask hperiod hasked faithful_nil hknown
  have hyields : Yields (Faithful p tree) (Faithful p tree) (state p index previous)
      (stateBy (shortAfter p) p index previous) := yields_faithful hperiod hprevious
  have hanswer := (hyields known hfaithful).1
  have hfresh := (hyields [] faithful_nil).1
  refine ⟨hanswer.trans hfresh.symm, ?_, ?_⟩
  · rw [hanswer]
    exact stateBy_shortAfter_iff hperiod (fun b hb => tree.graded b (hprevious b hb))
      fun b hb => hrise b (hprevious b hb)
  · intro hspan hbit hfits
    rw [hanswer]
    exact exists_stateBy_shortAfter hspan hbit hfits

end Deployment

/-- What a question comes to can be compared. -/
instance decidableEqExcept {ε α : Type} [DecidableEq ε] [DecidableEq α] : DecidableEq (Except ε α)
  | .ok a, .ok b => decidable_of_iff (a = b) ⟨congrArg _, Except.ok.inj⟩
  | .error e, .error f => decidable_of_iff (e = f) ⟨congrArg _, Except.error.inj⟩
  | .ok _, .error _ => isFalse (by intro h; cases h)
  | .error _, .ok _ => isFalse (by intro h; cases h)

namespace Sample

/-- Two votes in a window of two lock a deployment in, once the time is twenty. -/
def voting : Params :=
  { Params.regtest with
    minerConfirmationWindow := 2
    ruleChangeActivationThreshold := 2
    medianTimeSpan := 1
    deployments := [⟨"csv", 0, 20, 100⟩] }

/-- The first window, at the end of which the votes start. -/
def trunk : Branch :=
  ⟨linkAt 1 0x20000000 20, [linkAt 0 0x20000000 10]⟩

/-- A header that votes, after the first window. -/
def left : Branch :=
  ⟨linkAt 2 0x20000001 30, trunk.links⟩

/-- Another header after the first window, which does not. -/
def right : Branch :=
  ⟨{ linkAt 2 0x20000000 30 with hash := Digest.ofNat 12 }, trunk.links⟩

/-- Two headers that vote. -/
def leftmost : Branch :=
  ⟨linkAt 3 0x20000001 40, left.links⟩

/-- One of two headers votes. -/
def rightmost : Branch :=
  ⟨{ linkAt 3 0x20000001 40 with hash := Digest.ofNat 13 }, right.links⟩

/-- All of them. -/
def forked : List Branch :=
  [⟨linkAt 0 0x20000000 10, []⟩, trunk, left, leftmost, right, rightmost]

theorem graded_forked : ∀ b ∈ forked, b.Graded := by
  have htrunk : trunk.Graded := .above rfl .lowest
  intro b hb
  simp only [forked, List.mem_cons, List.not_mem_nil, or_false] at hb
  rcases hb with rfl | rfl | rfl | rfl | rfl | rfl
  · exact .lowest
  · exact htrunk
  · exact .above rfl htrunk
  · exact .above rfl (.above rfl htrunk)
  · exact .above rfl htrunk
  · exact .above rfl (.above rfl htrunk)

theorem parents_forked : ∀ b ∈ forked, ∀ parent, b.parent? = some parent →
    parent ∈ forked ∧ parent.tip.header.time ≤ b.tip.header.time := by
  intro b hb parent hp
  simp only [forked, List.mem_cons, List.not_mem_nil, or_false] at hb
  rcases hb with rfl | rfl | rfl | rfl | rfl | rfl
  · cases hp
  all_goals
    cases hp
    decide

theorem identified_forked : ∀ a ∈ forked, ∀ b ∈ forked, a.hash = b.hash → a.bare = b.bare := by
  decide

/-- The branches that part after the first window. -/
def fork : HeaderTree where
  branches b := b ∈ forked
  graded := graded_forked
  closed b parent hb hp := (parents_forked b hb parent hp).1
  identified a b ha hb := identified_forked a ha b hb

theorem mediansRise_fork : ∀ b ∈ fork, b.MediansRise 1 := by
  intro b hb a parent ha hp m m' hm hm'
  have ha : a ∈ forked := fork.mem_of_suffix hb ha
  rw [Branch.medianTime_one] at hm hm'
  cases hm
  cases hm'
  exact (parents_forked a ha parent hp).2

/-- Questions about one of the two branches, about the trunk and about no deployment. -/
def asked : List (Nat × Option Branch) :=
  [(0, some leftmost), (0, some trunk), (7, none)]

/-- What is known after them: two windows, the earlier one kept first. -/
def known : Deployment.Cache :=
  [((0, leftmost.hash), .lockedIn), ((0, trunk.hash), .started)]

theorem asked_forked : ∀ q ∈ asked, ∀ b, q.2 = some b → b ∈ fork := by
  intro q hq b hb
  simp only [asked, List.mem_cons, List.not_mem_nil, or_false] at hq
  change b ∈ forked
  rcases hq with rfl | rfl | rfl
  · cases hb
    decide
  · cases hb
    decide
  · cases hb

theorem known_asked : (Deployment.ask voting asked).run [] = .ok ((), known) := by
  decide +kernel

theorem member_rightmost : ∀ b, some rightmost = some b → b ∈ fork := by
  intro b hb
  cases hb
  change rightmost ∈ forked
  decide

theorem not_overdue_rightmost : ¬Deployment.Overdue voting 0 (some rightmost) := by
  rintro ⟨d, b, h, window, m, hw, hm, -, hearly⟩
  cases h.deployment
  cases h.before
  cases hw
  rw [show voting.medianTimeSpan.toNat = 1 from rfl, Branch.medianTime_one] at hm
  cases hm
  exact absurd hearly (by decide)

end Sample

/-- On the other branch of the fork, where one header of two voted, the deployment is not locked
in. -/
theorem state_after_questions_forked :
    (Deployment.state Sample.voting 0 (some Sample.rightmost)).run' Sample.known =
        (Deployment.state Sample.voting 0 (some Sample.rightmost)).run' [] ∧
      (Deployment.state Sample.voting 0 (some Sample.rightmost)).run' Sample.known =
        Deployment.expected Sample.voting 0 (some Sample.rightmost) ∧
      Deployment.expected Sample.voting 0 (some Sample.rightmost) = .ok .started ∧
      ∃ s, (Deployment.state Sample.voting 0 (some Sample.rightmost)).run' Sample.known = .ok s := by
  obtain ⟨hfresh, hexpected, htotal⟩ := Deployment.state_after_questions Sample.voting (by decide)
    Sample.fork Sample.mediansRise_fork Sample.asked Sample.asked_forked Sample.known
    Sample.known_asked 0 (some Sample.rightmost) Sample.member_rightmost
  refine ⟨hfresh, hexpected.mpr Sample.not_overdue_rightmost, by decide +kernel, ?_⟩
  refine htotal (by decide) ?_ ?_
  · intro d hd
    cases hd
    decide
  · intro b hb
    cases hb
    decide

namespace Sample

/-- The time of the deployment runs out before the start. -/
def outOfTime : Params :=
  { Params.regtest with
    minerConfirmationWindow := 1
    ruleChangeActivationThreshold := 1
    deployments := [⟨"csv", 0, 2000, 1000⟩] }

/-- One header between the two times. -/
def between : Branch :=
  .root ⟨4, Digest.zero, Digest.zero, 1500, 0x207fffff, 0⟩

/-- A tree of one header. -/
def lone : HeaderTree where
  branches b := b = between
  graded b hb := hb ▸ .lowest
  closed b parent hb hp := by
    cases hb
    cases hp
  identified a b ha hb _ := by rw [ha, hb]

theorem mediansRise_lone : ∀ b ∈ lone, b.MediansRise outOfTime.medianTimeSpan.toNat := by
  intro b hb
  cases hb
  exact .of_parent?_none rfl

end Sample

/-- After a window that ends before the start, when the time has run out already, the deployment
is said to be defined where the recursion has it failed. -/
theorem state_defined_out_of_time :
    (∀ b ∈ Sample.lone, b.MediansRise Sample.outOfTime.medianTimeSpan.toNat) ∧
      0 < Sample.outOfTime.minerConfirmationWindow.toNat ∧ Sample.between ∈ Sample.lone ∧
      (Deployment.state Sample.outOfTime 0 (some Sample.between)).run' [] = .ok .defined ∧
      Deployment.expected Sample.outOfTime 0 (some Sample.between) = .ok .failed :=
  ⟨Sample.mediansRise_lone, by decide, rfl, by decide +kernel, by decide +kernel⟩

end StakeChain
