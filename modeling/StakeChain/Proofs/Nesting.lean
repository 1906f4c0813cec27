/-
A script that runs through is well formed in every branch.

What may not stand in a script is refused before it is known whether the script
runs at that point, so a branch that is never taken is looked at like any other.
Conditionals are opened, turned and closed there too. The list of open
conditionals is therefore as deep as the text is nested, whatever was true of them:
read from the end of the run, where none is open, back to its start, each open one
is closed by an operation still to come, with a well-nested body before it.
-/
import StakeChain.Proofs.Untouched

namespace StakeChain

/-! ## Well-formed scripts -/

/-- An operation that may stand in a script, whether it runs or not. -/
structure Op.IsAllowed (op : Op) : Prop where
  decodes : op.isValid
  pushes : ∀ opcode data, op = .push opcode data → data.length ≤ 520
  enabled : op.opcode ∉ Opcode.disabled
  known : op ≠ .code Opcode.verIf ∧ op ≠ .code Opcode.verNotIf

/-- An operation that is counted. -/
def Op.isCounted (op : Op) : Bool :=
  op.opcode > Opcode.op16

namespace Script

/-- The operations that open a conditional. -/
def openers : List Op :=
  [.code Opcode.ifTrue, .code Opcode.ifFalse]

/-- The operations on conditionals. -/
def conditionals : List Op :=
  openers ++ [.code Opcode.otherwise, .code Opcode.endIf]

/-- Operations in which every conditional is closed and nothing else is. Only inside of one may
there be a turn to the other branch, and there any number of times. -/
inductive Nested : (inside : Bool) → List Op → Prop
  | nil {inside : Bool} : Nested inside []
  | plain {inside : Bool} {op : Op} {rest : List Op} : op ∉ conditionals → Nested inside rest →
      Nested inside (op :: rest)
  | otherwise {rest : List Op} : Nested true rest → Nested true (.code Opcode.otherwise :: rest)
  | conditional {inside : Bool} {opener : Op} {body rest : List Op} : opener ∈ openers →
      Nested true body → Nested inside rest →
      Nested inside (opener :: (body ++ .code Opcode.endIf :: rest))

/-- A script that keeps to the limits and the grammar everywhere. -/
structure WellFormed (s : Script) : Prop where
  size : s.size ≤ 10000
  allowed : ∀ op ∈ s.ops, op.IsAllowed
  counted : s.ops.countP Op.isCounted ≤ 201
  nested : Nested false s.ops

/-! ## What closes the open conditionals -/

/-- The operations close the conditionals that are open, from the innermost on. -/
def Closes : List Bool → List Op → Prop
  | [], ops => Nested false ops
  | _ :: outer, ops =>
      ∃ body rest, ops = body ++ .code Opcode.endIf :: rest ∧ Nested true body ∧ Closes outer rest

/-- What an operation that goes through does to the open conditionals. -/
inductive Turns : Op → List Bool → List Bool → Prop
  | opens {opener : Op} (taken : Bool) {outer : List Bool} : opener ∈ openers →
      Turns opener outer (taken :: outer)
  | turns (taken other : Bool) {outer : List Bool} :
      Turns (.code Opcode.otherwise) (taken :: outer) (other :: outer)
  | closes (taken : Bool) {outer : List Bool} :
      Turns (.code Opcode.endIf) (taken :: outer) outer
  | stays {op : Op} {branches : List Bool} : op ∉ conditionals → Turns op branches branches

namespace Closes

variable {branches : List Bool} {op : Op} {ops : List Op}

theorem plain (hop : op ∉ conditionals) (h : Closes branches ops) :
    Closes branches (op :: ops) := by
  cases branches with
  | nil => exact .plain hop h
  | cons taken outer =>
      obtain ⟨body, rest, rfl, hbody, hrest⟩ := h
      exact ⟨op :: body, rest, rfl, .plain hop hbody, hrest⟩

/-- The body of a conditional that is opened goes to what is inside the next one out, if there is
one. -/
theorem opened {taken : Bool} (hop : op ∈ openers) (h : Closes (taken :: branches) ops) :
    Closes branches (op :: ops) := by
  obtain ⟨body, rest, rfl, hbody, hrest⟩ := h
  cases branches with
  | nil => exact .conditional hop hbody hrest
  | cons next outer =>
      obtain ⟨following, rest, rfl, hfollowing, hrest⟩ := hrest
      refine ⟨op :: (body ++ .code Opcode.endIf :: following), rest, ?_, ?_, hrest⟩
      · simp
      · exact .conditional hop hbody hfollowing

/-- An operation, read before those after it. -/
theorem of_turns {after : List Bool} (hop : Turns op branches after) (h : Closes after ops) :
    Closes branches (op :: ops) := by
  cases hop with
  | opens taken hopener => exact h.opened hopener
  | turns taken other =>
      obtain ⟨body, rest, rfl, hbody, hrest⟩ := h
      exact ⟨.code Opcode.otherwise :: body, rest, rfl, .otherwise hbody, hrest⟩
  | closes taken => exact ⟨[], ops, rfl, .nil, h⟩
  | stays hplain => exact h.plain hplain

end Closes

end Script

namespace Eval

open Stateful Script

namespace Step

variable {env : Env} {rest : Bytes} {m u : Machine} {a : Unit}

/-! ## One operation -/

/-- What is known of an operation that went through, from one machine to another. -/
structure Passed (op : Op) (m u : Machine) : Prop where
  allowed : op.IsAllowed
  turns : Turns op m.branches u.branches
  counted : m.opCount + [op].countP Op.isCounted ≤ u.opCount
  limited : m.opCount ≤ maxOpCount → u.opCount ≤ maxOpCount

/-- A conditional is opened where the script runs and where it does not. -/
theorem conditional_opens {negated : Bool}
    (h : execute env rest (.conditional negated) m = .ok a u) :
    ∃ taken, u.branches = taken :: m.branches ∧ u.opCount = m.opCount := by
  by_cases hm : executing m
  · obtain ⟨item, under, -, rfl⟩ := conditional_ok hm h
    exact ⟨_, rfl, rfl⟩
  · have hskips : conditional env negated m = .ok a u := h
    obtain ⟨_, _, hget, hopen⟩ := bind_eq_ok.mp hskips
    obtain ⟨rfl, rfl⟩ := get_eq_ok.mp hget
    rw [if_neg hm] at hopen
    obtain rfl := modify_eq_ok.mp hopen
    exact ⟨false, rfl, rfl⟩

/-- The operations behind the instructions on conditionals. -/
theorem eq_of_isConditional {opcode : UInt8} (h : IsConditional (Instruction.ofOpcode opcode)) :
    (opcode = Opcode.ifTrue ∧ Instruction.ofOpcode opcode = .conditional false) ∨
      (opcode = Opcode.ifFalse ∧ Instruction.ofOpcode opcode = .conditional true) ∨
      (opcode = Opcode.otherwise ∧ Instruction.ofOpcode opcode = .otherwise) ∨
      (opcode = Opcode.endIf ∧ Instruction.ofOpcode opcode = .endIf) := by
  have htable : ∀ e ∈ Instruction.table, (∃ negated, e.2 = .conditional negated) ∨
      e.2 = .otherwise ∨ e.2 = .endIf →
      (e.1 = Opcode.ifTrue ∧ e.2 = .conditional false) ∨
        (e.1 = Opcode.ifFalse ∧ e.2 = .conditional true) ∨
        (e.1 = Opcode.otherwise ∧ e.2 = .otherwise) ∨
        (e.1 = Opcode.endIf ∧ e.2 = .endIf) := by decide
  cases hi : Instruction.ofOpcode opcode with
  | conditional negated => exact htable _ (mem_table hi nofun nofun) (.inl ⟨negated, rfl⟩)
  | otherwise => exact htable _ (mem_table hi nofun nofun) (.inr (.inl rfl))
  | endIf => exact htable _ (mem_table hi nofun nofun) (.inr (.inr rfl))
  | _ =>
      rw [hi] at h
      exact h.elim

theorem not_mem_conditionals {opcode : UInt8}
    (h : ¬ IsConditional (Instruction.ofOpcode opcode)) : .code opcode ∉ conditionals := by
  intro hop
  have hopcode : opcode = Opcode.ifTrue ∨ opcode = Opcode.ifFalse ∨ opcode = Opcode.otherwise ∨
      opcode = Opcode.endIf := by
    simpa [conditionals, openers] using hop
  rcases hopcode with rfl | rfl | rfl | rfl <;> exact h trivial

/-- An operation on conditionals does nothing but what its text says. -/
theorem execute_turns {opcode : UInt8} (hi : IsConditional (Instruction.ofOpcode opcode))
    (h : execute env rest (Instruction.ofOpcode opcode) m = .ok a u) :
    Turns (.code opcode) m.branches u.branches ∧ u.opCount = m.opCount := by
  obtain ⟨rfl, hop⟩ | ⟨rfl, hop⟩ | ⟨rfl, hop⟩ | ⟨rfl, hop⟩ := eq_of_isConditional hi
  · obtain ⟨taken, hbranches, hcount⟩ := conditional_opens (hop ▸ h)
    exact ⟨hbranches ▸ .opens taken (by simp [openers]), hcount⟩
  · obtain ⟨taken, hbranches, hcount⟩ := conditional_opens (hop ▸ h)
    exact ⟨hbranches ▸ .opens taken (by simp [openers]), hcount⟩
  · obtain ⟨taken, outer, hbranches, rfl⟩ := otherwise_ok (hop ▸ h)
    exact ⟨hbranches ▸ .turns taken _, rfl⟩
  · obtain ⟨taken, outer, hbranches, rfl⟩ := endIf_ok (hop ▸ h)
    exact ⟨hbranches ▸ .closes taken, rfl⟩

/-- What was refused before it was known whether the operation runs. -/
theorem screen_passed {opcode : UInt8} (h : screen opcode m = .ok a u) :
    opcode ∉ Opcode.disabled ∧
      m.opCount + (if opcode > Opcode.op16 then 1 else 0) ≤ u.opCount := by
  obtain ⟨henabled, hcounted⟩ := screen_eq_ok.mp h
  refine ⟨henabled, ?_⟩
  split at hcounted
  · next hop => rw [if_pos hop, hcounted.2, Machine.counted]
  · next hop => rw [if_neg hop, hcounted, Nat.add_zero]

theorem Passed.of_screen {op : Op} {w : Machine} (hscreen : screen op.opcode m = .ok a w)
    (hallowed : op.opcode ∉ Opcode.disabled → op.IsAllowed)
    (hturns : Turns op w.branches u.branches) (hle : w.opCount ≤ u.opCount)
    (hlimited : w.opCount ≤ maxOpCount → u.opCount ≤ maxOpCount) : Passed op m u := by
  obtain ⟨henabled, hcounted⟩ := screen_passed hscreen
  have hkept := (keeps_screen op.opcode).ok hscreen
  refine ⟨hallowed henabled, hkept.branches ▸ hturns, ?_, hlimited ∘ hkept.opCount_le⟩
  simpa [List.countP_cons, Op.isCounted] using hcounted.trans hle

/-- A push changes nothing but the stack and the count. -/
theorem push_passed {opcode : UInt8} {data : Bytes}
    (h : operation env rest (.push opcode data) m = .ok a u) : Passed (.push opcode data) m u := by
  obtain ⟨_, _, hdemand, hpushes⟩ := bind_eq_ok.mp h
  obtain ⟨hsize, rfl⟩ := demand_eq_ok.mp hdemand
  obtain ⟨_, w, hscreen, hruns⟩ := bind_eq_ok.mp hpushes
  have hkept : u.KeptFrom w := Keeps.ok (.get_bind fun w => .ite
    ((keeps_demand _ _).bind fun _ => (keeps_push data).bind fun _ => keeps_demandStackSize)
    keeps_demandStackSize) hruns
  refine .of_screen hscreen (fun henabled => ⟨rfl, ?_, henabled, nofun, nofun⟩) ?_
    hkept.le_opCount hkept.opCount_le
  · rintro opcode data ⟨⟩
    exact of_decide_eq_true hsize
  · rw [hkept.branches]
    exact .stays (by simp [conditionals, openers])

/-- The two conditionals on versions stand among the operations that run in every branch, and
none of the instructions is theirs. -/
theorem ne_verIf {opcode : UInt8} (h : operation env rest (.code opcode) m = .ok a u) :
    opcode ≠ Opcode.verIf ∧ opcode ≠ Opcode.verNotIf := by
  obtain ⟨w, -, hruns⟩ := code_ok h
  have hunknown : ∀ opcode ∈ [Opcode.verIf, Opcode.verNotIf],
      isOnBranches opcode = true ∧ Instruction.ofOpcode opcode = .unknown := by decide +kernel
  by_contra hver
  have hmem : opcode ∈ [Opcode.verIf, Opcode.verNotIf] := by
    simpa [or_iff_not_imp_left] using hver
  obtain ⟨hbranches, hi⟩ := hunknown opcode hmem
  rw [hbranches, if_pos (Bool.or_true _), hi] at hruns
  exact throw_ne_ok hruns

theorem code_passed {opcode : UInt8} (h : operation env rest (.code opcode) m = .ok a u) :
    Passed (.code opcode) m u := by
  have hallowed : opcode ∉ Opcode.disabled → (Op.code opcode).IsAllowed := fun henabled =>
    ⟨rfl, nofun, henabled, by simpa using ne_verIf h⟩
  obtain ⟨w, hscreen, hruns⟩ := code_ok h
  by_cases hi : IsConditional (Instruction.ofOpcode opcode)
  · have hbranches : isOnBranches opcode = true := by
      rcases eq_of_isConditional hi with ⟨rfl, -⟩ | ⟨rfl, -⟩ | ⟨rfl, -⟩ | ⟨rfl, -⟩ <;> rfl
    rw [hbranches, if_pos (Bool.or_true _)] at hruns
    obtain ⟨hturns, hcount⟩ := execute_turns hi hruns
    exact .of_screen hscreen hallowed hturns hcount.ge hcount.trans_le
  · have hkept : u.KeptFrom w := by
      split at hruns
      · exact (keeps_execute rest hi).ok hruns
      · exact hruns ▸ .refl w
    refine .of_screen hscreen hallowed ?_ hkept.le_opCount hkept.opCount_le
    rw [hkept.branches]
    exact .stays (not_mem_conditionals hi)

theorem operation_passed {op : Op} (h : operation env rest op m = .ok a u) : Passed op m u := by
  cases op with
  | invalid opcode => exact absurd h throw_ne_ok
  | push opcode data => exact push_passed h
  | code opcode => exact code_passed h

/-! ## Operations one after another -/

/-- What is known of operations that went through, from one machine to another. -/
structure PassedAll (ops : List Op) (m u : Machine) : Prop where
  allowed : ∀ op ∈ ops, op.IsAllowed
  closes : ∀ {after : List Op}, Closes u.branches after → Closes m.branches (ops ++ after)
  counted : m.opCount + ops.countP Op.isCounted ≤ u.opCount
  limited : m.opCount ≤ maxOpCount → u.opCount ≤ maxOpCount

theorem PassedAll.nil (m : Machine) : PassedAll [] m m :=
  ⟨nofun, id, Nat.le_refl _, id⟩

theorem Passed.cons {op : Op} {ops : List Op} {w : Machine} (h : Passed op m w)
    (hs : PassedAll ops w u) : PassedAll (op :: ops) m u where
  allowed := List.forall_mem_cons.mpr ⟨h.allowed, hs.allowed⟩
  closes hafter := Closes.of_turns h.turns (hs.closes hafter)
  counted := by
    have hop := h.counted
    have hops := hs.counted
    rw [← List.singleton_append, List.countP_append]
    omega
  limited := hs.limited ∘ h.limited

theorem operations_passed {fuel : Nat} {bs : Bytes} (h : operations env fuel bs m = .ok a u) :
    PassedAll (opsWithin fuel bs) m u := by
  induction fuel generalizing bs m with
  | zero =>
      obtain ⟨-, rfl⟩ := pure_eq_ok.mp h
      exact .nil _
  | succ fuel ih =>
      rw [opsWithin]
      cases hop : Op.decode bs with
      | none =>
          rw [operations, hop] at h
          obtain ⟨-, rfl⟩ := pure_eq_ok.mp h
          exact .nil _
      | some next =>
          obtain ⟨op, rest⟩ := next
          obtain ⟨w, hoperation, hrest⟩ := operations_cons_ok hop h
          exact (operation_passed hoperation).cons (ih hrest)

end Step

variable {env : Env} {s : Script} {stack : List Bytes} {trace : List Event}

/-- A script that runs through, on whatever stack and under whatever flags, is well formed
everywhere: in the branches that were taken and in those that were not. -/
theorem wellFormed_of_run {m : Machine} {a : Unit} (h : run env s stack trace = .ok a m) :
    s.WellFormed := by
  obtain ⟨_, _, hdemand, hruns⟩ := bind_eq_ok.mp h
  obtain ⟨hsize, rfl⟩ := Step.demand_eq_ok.mp hdemand
  obtain ⟨_, w, hops, hend⟩ := bind_eq_ok.mp hruns
  obtain ⟨_, _, hget, hbranches⟩ := bind_eq_ok.mp hend
  obtain ⟨rfl, rfl⟩ := get_eq_ok.mp hget
  have hpassed := Step.operations_passed hops
  rw [← s.ops_eq] at hpassed
  refine ⟨of_decide_eq_true hsize, hpassed.allowed, ?_, ?_⟩
  · have hlimited := hpassed.limited (Nat.zero_le _)
    have hcounted := hpassed.counted
    exact (Nat.le_add_left _ _).trans (hcounted.trans hlimited)
  · have hclosed := List.isEmpty_iff.mp (Step.demand_eq_ok.mp hbranches).1
    have hnested : Closes [] (s.ops ++ []) := hpassed.closes (hclosed ▸ .nil)
    rwa [List.append_nil] at hnested

/-- A branch that is not taken holds a conditional of its own, with two turns in it, and an
operation that would end the script. -/
theorem wellFormed_of_run_nested :
    let env : Env := ⟨Flags.none, .legacy, Checker.null⟩
    let s : Script := ⟨[Opcode.op0, Opcode.ifTrue, Opcode.ifFalse, Opcode.halt, Opcode.otherwise,
      Opcode.otherwise, Opcode.endIf, Opcode.otherwise, Opcode.op1, Opcode.endIf]⟩
    (∃ m, run env s [] [] = .ok () m) ∧ s.WellFormed := by
  intro env s
  obtain ⟨_, m, hm⟩ : ∃ a m, run env s [] [] = .ok a m := exists_ok_of_result? (by decide +kernel)
  exact ⟨⟨m, hm⟩, wellFormed_of_run hm⟩

end Eval

end StakeChain
