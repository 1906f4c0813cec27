/-
Runs of known scripts.

Where a script is known, a run that went through can be followed operation
by operation: each one found the items it takes, and left what it leaves.
Nothing has to be known of the stack before the run; what was on it is
learnt from the operations having gone through.
-/
import StakeChain.Proofs.SigChecks

namespace StakeChain

namespace Stateful

variable {ε σ α β : Type} {t : EStateM ε σ α} {f : α → EStateM ε σ β} {s u : σ} {b : β}

/-- A step that leaves the state as it was, before others. -/
theorem Still.bind_ok (ht : Still Eq t) (h : (t >>= f) s = .ok b u) :
    ∃ a, t s = .ok a s ∧ f a s = .ok b u := by
  obtain ⟨a, w, ha, hf⟩ := bind_eq_ok.mp h
  obtain rfl : w = s := ht.run_ok rfl ha
  exact ⟨a, ha, hf⟩

/-- The value and the state of an outcome that is no error. -/
def result? : EStateM.Result ε σ α → Option (α × σ)
  | .ok a s => some (a, s)
  | .error .. => none

theorem result?_eq_some {r : EStateM.Result ε σ α} {a : α} :
    result? r = some (a, s) ↔ r = .ok a s := by
  cases r <;> simp [result?]

theorem exists_ok_of_result? {r : EStateM.Result ε σ α} (h : (result? r).isSome) :
    ∃ a s, r = .ok a s := by
  obtain ⟨⟨a, s⟩, hr⟩ := Option.isSome_iff_exists.mp h
  exact ⟨a, s, result?_eq_some.mp hr⟩

end Stateful

namespace Eval

open Stateful

namespace Step

variable {env : Env} {rest : Bytes} {m u : Machine} {a : Unit}

/-! ## Steps that look at the machine -/

/-- A step that, where it goes through, leaves the machine as it was. -/
abbrev Looks {α : Type} (t : Step α) : Prop :=
  Stateful.Still Eq t

theorem looks_demand (condition : Bool) (e : ScriptError) : Looks (demand condition e) :=
  .ite (.pure ()) .throw

theorem looks_stack : Looks stack :=
  .get_bind fun _ => .pure _

theorem looks_require (n : Nat) : Looks (require n) :=
  looks_stack.bind fun _ => looks_demand _ _

theorem looks_top (depth : Nat) : Looks (top depth) := by
  refine .ite .throw (looks_stack.bind fun items => ?_)
  split
  · exact .pure _
  · exact .throw

theorem looks_scriptCode (env : Env) (sigs : List Bytes) : Looks (scriptCode env sigs) := by
  refine .get_bind fun m => ?_
  split
  · exact .pure _
  · exact .pure _

theorem looks_demandSignatureEncoding (env : Env) (sig : Bytes) :
    Looks (demandSignatureEncoding env sig) :=
  .ite (.pure ()) ((looks_demand _ _).bind fun _ =>
    (looks_demand _ _).bind fun _ => looks_demand _ _)

theorem looks_demandKeyEncoding (env : Env) (key : Bytes) : Looks (demandKeyEncoding env key) :=
  (looks_demand _ _).bind fun _ => looks_demand _ _

/-! ## What instructions take and leave -/

theorem pop_ok {item : Bytes} (h : pop m = .ok item u) :
    ∃ under, m.stack = item :: under ∧ u = { m with stack := under } := by
  obtain ⟨stack, alt, branches, n, code, trace⟩ := m
  cases stack with
  | nil => cases h
  | cons item under =>
      cases h
      exact ⟨under, rfl, rfl⟩

theorem dup_ok (h : execute env rest .dup m = .ok a u) :
    ∃ item under, m.stack = item :: under ∧ u = { m with stack := item :: item :: under } := by
  obtain ⟨stack, alt, branches, n, code, trace⟩ := m
  cases stack with
  | nil => cases h
  | cons item under =>
      cases h
      exact ⟨item, under, rfl, rfl⟩

theorem hashing_ok {f : Hashing} (h : execute env rest (.hashing f) m = .ok a u) :
    ∃ item under, m.stack = item :: under ∧ u = { m with stack := f.apply item :: under } := by
  obtain ⟨item, _, hpop, hpush⟩ := bind_eq_ok.mp h
  obtain ⟨under, hstack, rfl⟩ := pop_ok hpop
  exact ⟨item, under, hstack, modify_eq_ok.mp hpush⟩

theorem rot_ok (h : execute env rest .rot m = .ok a u) :
    ∃ x y z under, m.stack = x :: y :: z :: under ∧
      u = { m with stack := z :: x :: y :: under } := by
  obtain ⟨stack, alt, branches, n, code, trace⟩ := m
  rcases stack with _ | ⟨x, _ | ⟨y, _ | ⟨z, under⟩⟩⟩
  · cases h
  · cases h
  · cases h
  · cases h
    exact ⟨x, y, z, under, rfl, rfl⟩

/-- A comparison that has to hold takes two equal items. -/
theorem equalVerify_ok (h : execute env rest (.equal true) m = .ok a u) :
    ∃ item under, m.stack = item :: item :: under ∧ u = { m with stack := under } := by
  obtain ⟨_, -, h⟩ := (looks_require 2).bind_ok h
  obtain ⟨y, _, hy, hrest⟩ := bind_eq_ok.mp h
  obtain ⟨_, hstack, rfl⟩ := pop_ok hy
  obtain ⟨x, _, hx, hpush⟩ := bind_eq_ok.mp hrest
  obtain ⟨under, rfl, rfl⟩ := pop_ok hx
  obtain ⟨_, _, hpushed, hverify⟩ := bind_eq_ok.mp hpush
  obtain rfl := modify_eq_ok.mp hpushed
  obtain ⟨_, _, hequal, hdiscard⟩ := bind_eq_ok.mp hverify
  obtain ⟨hxy, rfl⟩ := demand_eq_ok.mp hequal
  obtain rfl := eq_of_beq hxy
  exact ⟨x, under, hstack, modify_eq_ok.mp hdiscard⟩

/-- A conditional that runs takes an item and opens on its truth. -/
theorem conditional_ok {negated : Bool} (hm : executing m)
    (h : execute env rest (.conditional negated) m = .ok a u) :
    ∃ item under, m.stack = item :: under ∧
      u = { m with
        stack := under
        branches := (ScriptNumber.isTrue item != negated) :: m.branches
        trace := .branch (ScriptNumber.isTrue item != negated) :: m.trace } := by
  have hruns : conditional env negated m = .ok a u := h
  obtain ⟨_, _, hget, hrest⟩ := bind_eq_ok.mp hruns
  obtain ⟨rfl, rfl⟩ := get_eq_ok.mp hget
  rw [if_pos hm] at hrest
  obtain ⟨_, -, hrest⟩ := looks_stack.bind_ok hrest
  obtain ⟨_, -, hrest⟩ := (looks_demand _ _).bind_ok hrest
  obtain ⟨item, htop, hrest⟩ := (looks_top 1).bind_ok hrest
  obtain ⟨_, -, hrest⟩ := (looks_demand _ _).bind_ok hrest
  have hhead := (top_eq_ok.mp htop).1
  rw [← List.head?_eq_getElem?] at hhead
  obtain ⟨under, hunder⟩ := List.head?_eq_some_iff.mp hhead
  cases hrest
  refine ⟨item, under, hunder, ?_⟩
  dsimp only
  rw [hunder, List.drop_one, List.tail_cons]

theorem otherwise_ok (h : execute env rest .otherwise m = .ok a u) :
    ∃ taken outer, m.branches = taken :: outer ∧ u = { m with branches := (!taken) :: outer } := by
  obtain ⟨stack, alt, branches, n, code, trace⟩ := m
  cases branches with
  | nil => cases h
  | cons taken outer =>
      cases h
      exact ⟨taken, outer, rfl, rfl⟩

theorem endIf_ok (h : execute env rest .endIf m = .ok a u) :
    ∃ taken outer, m.branches = taken :: outer ∧ u = { m with branches := outer } := by
  obtain ⟨stack, alt, branches, n, code, trace⟩ := m
  cases branches with
  | nil => cases h
  | cons taken outer =>
      cases h
      exact ⟨taken, outer, rfl, rfl⟩

/-- Where the check is in force, it goes through for a transaction that stakes. -/
theorem checkColdStake_ok (hflag : env.flags.checkColdStakeVerify)
    (h : execute env rest .checkColdStake m = .ok a u) :
    env.checker.coldStake ∧ u = { m with trace := .coldStake true :: m.trace } := by
  rw [execute, checkColdStake, if_pos hflag] at h
  obtain ⟨stakes, _, hask, hdemand⟩ := bind_eq_ok.mp h
  cases hask
  obtain ⟨hstakes, rfl⟩ := demand_eq_ok.mp hdemand
  exact ⟨hstakes, by rw [hstakes]⟩

/-- A signature check takes a key and a signature, and leaves the answer about them. -/
theorem checkSig_ok (h : execute env rest (.checkSig false) m = .ok a u) :
    ∃ key sig under code valid, m.stack = key :: sig :: under ∧
      env.checker.signature sig key code env.version = .ok valid ∧
      u = { m with
        stack := ScriptNumber.ofBool valid :: under
        trace := .signature sig key code env.version valid :: m.trace } := by
  have hcheck : checkSig env false m = .ok a u := h
  obtain ⟨_, hrequire, -⟩ := (looks_require 2).bind_ok hcheck
  obtain ⟨key, sig, under, hstack⟩ : ∃ key sig under, m.stack = key :: sig :: under := by
    match hitems : m.stack, (require_eq_ok.mp hrequire).1 with
    | key :: sig :: under, _ => exact ⟨key, sig, under, rfl⟩
  obtain ⟨-, -, valid, hvalid, -, hu⟩ := (checkSig_eq_ok hstack).mp h
  exact ⟨key, sig, under, _, valid, hstack, hvalid, hu⟩

/-! ## Operations -/

/-- An operation is screened before it is carried out or passed over. -/
theorem code_ok {opcode : UInt8} (h : operation env rest (.code opcode) m = .ok a u) :
    ∃ w, screen opcode m = .ok () w ∧
      if executing w || isOnBranches opcode then
        execute env rest (Instruction.ofOpcode opcode) w = .ok () u
      else u = w := by
  obtain ⟨_, w, hscreen, hlooks⟩ := bind_eq_ok.mp h
  obtain ⟨_, _, hget, hruns⟩ := bind_eq_ok.mp hlooks
  obtain ⟨rfl, rfl⟩ := get_eq_ok.mp hget
  refine ⟨_, hscreen, ?_⟩
  split
  · next hexec =>
      rw [if_pos hexec] at hruns
      obtain ⟨_, _, hexecute, hsize⟩ := bind_eq_ok.mp hruns
      obtain ⟨-, rfl⟩ := demandStackSize_eq_ok.mp hsize
      exact hexecute
  · next hexec =>
      rw [if_neg hexec] at hruns
      exact (demandStackSize_eq_ok.mp hruns).2

/-- An operation above the small numbers is counted, and executed where the script runs. -/
theorem operation_counted_ok {opcode : UInt8} (hop : opcode > Opcode.op16)
    (h : operation env rest (.code opcode) m = .ok a u) :
    if executing m || isOnBranches opcode then
      execute env rest (Instruction.ofOpcode opcode) m.counted = .ok () u
    else u = m.counted := by
  obtain ⟨w, hscreen, hruns⟩ := code_ok h
  obtain ⟨n, rfl, hcounted⟩ := screen_ok hscreen
  obtain ⟨rfl, -⟩ := hcounted hop
  exact hruns

/-- A push puts its data on the stack where the script runs, and is not counted. -/
theorem operation_pushed_ok {opcode : UInt8} {data : Bytes} (hop : opcode ≤ Opcode.op16)
    (h : operation env rest (.push opcode data) m = .ok a u) :
    u = if executing m then { m with stack := data :: m.stack } else m := by
  obtain ⟨_, -, h⟩ := (looks_demand _ _).bind_ok h
  have hscreen : Looks (screen opcode) := by
    rw [screen, if_neg (UInt8.not_lt.mpr hop)]
    exact looks_demand _ _
  obtain ⟨_, -, h⟩ := hscreen.bind_ok h
  obtain ⟨_, _, hget, hruns⟩ := bind_eq_ok.mp h
  obtain ⟨rfl, rfl⟩ := get_eq_ok.mp hget
  split
  · next hexec =>
      rw [if_pos hexec] at hruns
      obtain ⟨_, -, hpush⟩ := (looks_demand _ _).bind_ok hruns
      obtain ⟨_, _, hpushed, hsize⟩ := bind_eq_ok.mp hpush
      rw [(demandStackSize_eq_ok.mp hsize).2, modify_eq_ok.mp hpushed]
  · next hexec =>
      rw [if_neg hexec] at hruns
      exact (demandStackSize_eq_ok.mp hruns).2

/-! ## One operation after another -/

theorem operations_cons_ok {fuel : Nat} {bs : Bytes} {op : Op}
    (hop : Op.decode bs = some (op, rest)) (h : operations env (fuel + 1) bs m = .ok a u) :
    ∃ w, operation env rest op m = .ok () w ∧ operations env fuel rest w = .ok a u := by
  rw [operations, hop] at h
  obtain ⟨_, w, hoperation, hrest⟩ := bind_eq_ok.mp h
  exact ⟨w, hoperation, hrest⟩

theorem operations_nil_ok {fuel : Nat} (h : operations env fuel [] m = .ok a u) : u = m := by
  cases fuel with
  | zero => exact (pure_eq_ok.mp h).2
  | succ fuel => exact (pure_eq_ok.mp h).2

/-- The script goes on with an operation that runs. -/
theorem operations_executed_ok {fuel : Nat} {opcode : UInt8} (hop : opcode > Opcode.op16)
    (hruns : executing m || isOnBranches opcode)
    (h : operations env (fuel + 1) (opcode :: rest) m = .ok a u) :
    ∃ w, execute env rest (Instruction.ofOpcode opcode) m.counted = .ok () w ∧
      operations env fuel rest w = .ok a u := by
  have hdecode := Op.decode_of_gt (UInt8.lt_trans (by decide) hop) rest
  obtain ⟨w, hoperation, hrest⟩ := operations_cons_ok hdecode h
  have hexecute := operation_counted_ok hop hoperation
  rw [if_pos hruns] at hexecute
  exact ⟨w, hexecute, hrest⟩

/-- The script goes on with an operation that is passed over. -/
theorem operations_skipped_ok {fuel : Nat} {opcode : UInt8} (hop : opcode > Opcode.op16)
    (hskips : (executing m || isOnBranches opcode) = false)
    (h : operations env (fuel + 1) (opcode :: rest) m = .ok a u) :
    operations env fuel rest m.counted = .ok a u := by
  have hdecode := Op.decode_of_gt (UInt8.lt_trans (by decide) hop) rest
  obtain ⟨w, hoperation, hrest⟩ := operations_cons_ok hdecode h
  have hskipped := operation_counted_ok hop hoperation
  rw [hskips, if_neg Bool.false_ne_true] at hskipped
  exact hskipped ▸ hrest

/-- The script goes on with a push of as many bytes as its first byte says. -/
theorem operations_pushed_ok {fuel : Nat} {opcode : UInt8} {data : Bytes}
    (hop : opcode < Opcode.pushData1) (hdata : data.length = opcode.toNat)
    (h : operations env (fuel + 1) (opcode :: (data ++ rest)) m = .ok a u) :
    operations env fuel rest (if executing m then { m with stack := data :: m.stack } else m) =
      .ok a u := by
  obtain ⟨w, hoperation, hrest⟩ := operations_cons_ok (Op.decode_append hop hdata rest) h
  have hle : opcode ≤ Opcode.op16 :=
    UInt8.le_of_lt (UInt8.lt_of_lt_of_le hop (by decide))
  exact operation_pushed_ok hle hoperation ▸ hrest

/-- A script that goes through is run operation by operation. -/
theorem script_ok {s : Script} (h : script env s m = .ok a u) :
    operations env s.bytes.length s.bytes m = .ok () u := by
  obtain ⟨_, -, h⟩ := (looks_demand _ _).bind_ok h
  obtain ⟨_, w, hops, hend⟩ := bind_eq_ok.mp h
  obtain ⟨_, _, hget, hbranches⟩ := bind_eq_ok.mp hend
  obtain ⟨rfl, rfl⟩ := get_eq_ok.mp hget
  obtain ⟨-, rfl⟩ := demand_eq_ok.mp hbranches
  exact hops

end Step

end Eval

end StakeChain
