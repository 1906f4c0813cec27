/-
When steps go through.

A step that only looks at the machine goes through on a condition, and what follows it
goes on from the same machine. Conditions of this kind make up a check of one signature:
the encodings that the flags ask for, as predicates on the signature and the key
alone, and the answer about them. Where the machine is known, operations are equations:
the script runs as what is left of it does after the first of them.
-/
import StakeChain.Eval.Step
import StakeChain.Proofs.Operations
import StakeChain.Proofs.Stateful

namespace StakeChain.Eval

open Stateful

/-! ## Encodings -/

/-- A signature encoded as the flags ask, or the empty one. -/
structure SignatureEncoded (f : Flags) (sig : Bytes) : Prop where
  der : sig ≠ [] → f.derSignatures ∨ f.lowS ∨ f.strictEncoding → Key.isStrictSignature sig
  lowS : sig ≠ [] → f.lowS → Key.isLowS sig.dropLast
  hashType : sig ≠ [] → f.strictEncoding → Key.hasKnownHashType sig

/-- A key encoded as the flags ask for scripts of the version. -/
structure KeyEncoded (f : Flags) (version : HashVersion) (key : Bytes) : Prop where
  form : f.strictEncoding → Key.isCompressedOrFull key
  compressed : f.witnessPubkeyType → version = .witnessV0 → Key.isCompressed key

/-- A rule that is in force only with its flag. -/
theorem unless_iff_imp {flag holds : Bool} : (!flag || holds) ↔ (flag → holds) := by
  cases flag <;> simp

/-- More bytes than one, and no more than their number can be said in the first byte, are pushed
by it. -/
theorem isMinimalPush_of_length {opcode : UInt8} {data : Bytes} (hlow : 2 ≤ data.length)
    (hhigh : data.length ≤ 75) (hop : data.length = opcode.toNat) : isMinimalPush opcode data := by
  match data, hlow with
  | x :: y :: rest, _ =>
      rw [isMinimalPush, if_pos hhigh, beq_iff_eq, hop]
      · nofun
      · nofun

/-- The machine after one more operation was counted. -/
def Machine.counted (m : Machine) : Machine :=
  { m with opCount := m.opCount + 1 }

namespace Step

variable {env : Env} {rest : Bytes} {m u : Machine} {a : Unit}

/-- The script that signatures commit to. -/
def signedCode (version : HashVersion) (code : Bytes) (sigs : List Bytes) : Script :=
  match version with
  | .legacy => sigs.foldl (fun c sig => c.findAndDelete ⟨Script.pushData sig⟩) ⟨code⟩
  | .witnessV0 => ⟨code⟩

/-! ## Steps that look at the machine -/

theorem demand_eq_ok {c : Bool} {e : ScriptError} : demand c e m = .ok a u ↔ c ∧ u = m := by
  cases c with
  | true => exact pure_eq_ok.trans (and_congr_left' (iff_of_true rfl rfl))
  | false => exact iff_of_false throw_ne_ok nofun

theorem require_eq_ok {n : Nat} : require n m = .ok a u ↔ n ≤ m.stack.length ∧ u = m := by
  have hlooks : require n m = demand (n ≤ m.stack.length) .invalidStackOperation m := rfl
  rw [hlooks, demand_eq_ok, decide_eq_true_eq]

theorem top_eq_ok {place : Nat} {item : Bytes} :
    top (place + 1) m = .ok item u ↔ m.stack[place]? = some item ∧ u = m := by
  rw [top, if_neg (Nat.succ_ne_zero place), Nat.add_sub_cancel,
    bind_of_ok (show stack m = .ok m.stack m from rfl)]
  cases m.stack[place]? with
  | none => exact iff_of_false throw_ne_ok nofun
  | some found => rw [pure_eq_ok, Option.some.injEq, eq_comm]

theorem scriptCode_eq (sigs : List Bytes) :
    scriptCode env sigs m = .ok (signedCode env.version m.code sigs) m := by
  change (match env.version with
    | .legacy => pure _
    | .witnessV0 => pure _ : Step Script) m = _
  cases env.version with
  | legacy => rfl
  | witnessV0 => rfl

theorem demandKeyEncoding_eq_ok {key : Bytes} :
    demandKeyEncoding env key m = .ok a u ↔ KeyEncoded env.flags env.version key ∧ u = m := by
  rw [demandKeyEncoding, bind_eq_ok_of_looks demand_eq_ok, demand_eq_ok, unless_iff_imp,
    unless_iff_imp, Bool.and_eq_true, beq_iff_eq, and_imp, ← and_assoc]
  exact and_congr_left' ⟨fun h => ⟨h.1, h.2⟩, fun h => ⟨h.form, h.compressed⟩⟩

theorem demandSignatureEncoding_eq_ok {sig : Bytes} :
    demandSignatureEncoding env sig m = .ok a u ↔ SignatureEncoded env.flags sig ∧ u = m := by
  rw [demandSignatureEncoding]
  split
  · next hempty =>
      have hsig : ¬ sig ≠ [] := not_not.mpr (List.isEmpty_iff.mp hempty)
      have hencoded : SignatureEncoded env.flags sig :=
        ⟨fun h => absurd h hsig, fun h => absurd h hsig, fun h => absurd h hsig⟩
      exact pure_eq_ok.trans (and_congr_left' (iff_of_true rfl hencoded))
  · next hempty =>
      have hsig : sig ≠ [] := fun h => hempty (List.isEmpty_iff.mpr h)
      rw [bind_eq_ok_of_looks demand_eq_ok, bind_eq_ok_of_looks demand_eq_ok, demand_eq_ok,
        unless_iff_imp, unless_iff_imp, unless_iff_imp, Bool.or_eq_true, Bool.or_eq_true,
        or_assoc, ← and_assoc, ← and_assoc]
      refine and_congr_left' ⟨fun h => ⟨fun _ => h.1.1, fun _ => h.1.2, fun _ => h.2⟩, fun h => ?_⟩
      exact ⟨⟨h.der hsig, h.lowS hsig⟩, h.hashType hsig⟩

theorem askSignature_eq_ok {sig key : Bytes} {code : Script} {valid : Bool} :
    askSignature env sig key code m = .ok valid u ↔
      env.checker.signature sig key code env.version = .ok valid ∧
        u = { m with trace := .signature sig key code env.version valid :: m.trace } := by
  rw [askSignature]
  cases hanswer : env.checker.signature sig key code env.version with
  | ok answer =>
      constructor
      · rintro ⟨⟩
        exact ⟨rfl, rfl⟩
      · rintro ⟨⟨⟩, rfl⟩
        rfl
  | error f => exact iff_of_false nofun nofun

/-- Two equal items are as many as a comparison that has to hold takes. -/
theorem equalVerify_of_stack {item : Bytes} {under : List Bytes}
    (hstack : m.stack = item :: item :: under) :
    execute env rest (.equal true) m = .ok () { m with stack := under } := by
  obtain ⟨stack, alt, branches, n, code, trace⟩ := m
  obtain rfl : stack = item :: item :: under := hstack
  have hrequire : require 2 ⟨item :: item :: under, alt, branches, n, code, trace⟩ =
      .ok () ⟨item :: item :: under, alt, branches, n, code, trace⟩ := rfl
  have hpop : ∀ items, pop ⟨item :: items, alt, branches, n, code, trace⟩ =
      .ok item ⟨items, alt, branches, n, code, trace⟩ := fun _ => rfl
  rw [execute, equal, bind_of_ok hrequire, bind_of_ok (hpop _), bind_of_ok (hpop _),
    beq_self_eq_true]
  rfl

/-! ## A check of one signature -/

theorem dropTop_two {first second : Bytes} {under : List Bytes}
    (hstack : m.stack = first :: second :: under) :
    dropTop 2 m = .ok () { m with stack := under } := by
  obtain ⟨stack, alt, branches, n, code, trace⟩ := m
  obtain rfl : stack = first :: second :: under := hstack
  rfl

/-- With a key and a signature on top, the check goes through if both are encoded as asked and
there is an answer, which has to be yes where invalid signatures have to be empty. -/
theorem checkSig_eq_ok {key sig : Bytes} {under : List Bytes}
    (hstack : m.stack = key :: sig :: under) :
    execute env rest (.checkSig false) m = .ok a u ↔
      SignatureEncoded env.flags sig ∧ KeyEncoded env.flags env.version key ∧
      ∃ valid,
        env.checker.signature sig key (signedCode env.version m.code [sig]) env.version =
          .ok valid ∧
        (valid || !env.flags.nullFail || sig.isEmpty) ∧
        u = { m with
          stack := ScriptNumber.ofBool valid :: under
          trace := .signature sig key (signedCode env.version m.code [sig]) env.version valid ::
            m.trace } := by
  have hrequire : require 2 m = .ok () m := require_eq_ok.mpr ⟨by simp [hstack], rfl⟩
  have hsig : top 2 m = .ok sig m := top_eq_ok.mpr ⟨by rw [hstack]; rfl, rfl⟩
  have hkey : top 1 m = .ok key m := top_eq_ok.mpr ⟨by rw [hstack]; rfl, rfl⟩
  change checkSig env false m = .ok a u ↔ _
  rw [checkSig, bind_of_ok hrequire, bind_of_ok hsig, bind_of_ok hkey,
    bind_of_ok (scriptCode_eq _), bind_eq_ok_of_looks demandSignatureEncoding_eq_ok,
    bind_eq_ok_of_looks demandKeyEncoding_eq_ok, bind_eq_ok]
  refine and_congr_right' (and_congr_right' (exists_congr fun valid => ?_))
  constructor
  · rintro ⟨w, hask, hleaves⟩
    obtain ⟨hvalid, rfl⟩ := askSignature_eq_ok.mp hask
    obtain ⟨hnull, hleaves⟩ := (bind_eq_ok_of_looks demand_eq_ok).mp hleaves
    rw [bind_of_ok (dropTop_two (by exact hstack))] at hleaves
    cases hleaves
    exact ⟨hvalid, hnull, rfl⟩
  · rintro ⟨hvalid, hnull, rfl⟩
    refine ⟨_, askSignature_eq_ok.mpr ⟨hvalid, rfl⟩, ?_⟩
    rw [bind_eq_ok_of_looks demand_eq_ok, bind_of_ok (dropTop_two (by exact hstack))]
    exact ⟨hnull, rfl⟩

/-! ## Operations -/

theorem countOps_eq_ok {n : Nat} :
    countOps n m = .ok a u ↔
      m.opCount + n ≤ maxOpCount ∧ u = { m with opCount := m.opCount + n } := by
  have hcounts : countOps n m = demand (m.opCount + n ≤ maxOpCount) .opCount
      { m with opCount := m.opCount + n } := rfl
  rw [hcounts, demand_eq_ok, decide_eq_true_eq]

/-- An operation above the small numbers is counted, and no disabled one goes through. -/
theorem screen_eq_ok {opcode : UInt8} :
    screen opcode m = .ok a u ↔
      opcode ∉ Opcode.disabled ∧
        if opcode > Opcode.op16 then m.opCount + 1 ≤ maxOpCount ∧ u = m.counted else u = m := by
  have henabled : (!Opcode.isDisabled opcode) ↔ opcode ∉ Opcode.disabled := by
    simp [Opcode.isDisabled]
  rw [screen]
  split
  · rw [bind_eq_ok]
    constructor
    · rintro ⟨_, _, hcount, hdemand⟩
      obtain ⟨hle, rfl⟩ := countOps_eq_ok.mp hcount
      obtain ⟨hop, rfl⟩ := demand_eq_ok.mp hdemand
      exact ⟨henabled.mp hop, hle, rfl⟩
    · rintro ⟨hop, hle, rfl⟩
      exact ⟨(), _, countOps_eq_ok.mpr ⟨hle, rfl⟩, demand_eq_ok.mpr ⟨henabled.mpr hop, rfl⟩⟩
  · exact demand_eq_ok.trans (and_congr_left' henabled)

theorem demandStackSize_eq_ok :
    demandStackSize m = .ok a u ↔ m.stack.length + m.alt.length ≤ maxStackSize ∧ u = m := by
  have hlooks : demandStackSize m =
      demand (m.stack.length + m.alt.length ≤ maxStackSize) .stackSize m := rfl
  rw [hlooks, demand_eq_ok, decide_eq_true_eq]

/-- An operation that is carried out, once it was counted. -/
theorem operations_executed {fuel : Nat} {opcode : UInt8} {w : Machine}
    (hop : opcode > Opcode.op16) (henabled : opcode ∉ Opcode.disabled) (hruns : executing m)
    (hcount : m.opCount + 1 ≤ maxOpCount)
    (hexecute : execute env rest (Instruction.ofOpcode opcode) m.counted = .ok () w)
    (hsize : w.stack.length + w.alt.length ≤ maxStackSize) :
    operations env (fuel + 1) (opcode :: rest) m = operations env fuel rest w := by
  have hscreen : screen opcode m = .ok () m.counted := by
    rw [screen_eq_ok, if_pos hop]
    exact ⟨henabled, hcount, rfl⟩
  have hoperation : operation env rest (.code opcode) m = .ok () w := by
    have hget : (get : Step Machine) m.counted = .ok m.counted m.counted := rfl
    have hcounted : executing m.counted := hruns
    rw [operation, bind_of_ok hscreen, bind_of_ok hget, hcounted, Bool.true_or, if_pos rfl,
      bind_of_ok hexecute]
    exact demandStackSize_eq_ok.mpr ⟨hsize, rfl⟩
  rw [operations, Op.decode_of_gt (UInt8.lt_trans (by decide) hop) rest]
  exact bind_of_ok hoperation

/-- A push of as many bytes as its first byte says. -/
theorem operations_pushed {fuel : Nat} {opcode : UInt8} {data : Bytes}
    (hop : opcode < Opcode.pushData1) (hdata : data.length = opcode.toNat)
    (hminimal : isMinimalPush opcode data) (hruns : executing m)
    (hsize : m.stack.length + 1 + m.alt.length ≤ maxStackSize) :
    operations env (fuel + 1) (opcode :: (data ++ rest)) m =
      operations env fuel rest { m with stack := data :: m.stack } := by
  have hle : opcode ≤ Opcode.op16 := UInt8.le_of_lt (UInt8.lt_of_lt_of_le hop (by decide))
  have hshort : data.length ≤ maxElementSize := by
    have hlt : opcode.toNat < 76 := UInt8.lt_iff_toNat_lt.mp hop
    rw [hdata]
    exact Nat.le_trans (Nat.le_of_lt hlt) (by decide)
  have hdisabled : ∀ op ∈ Opcode.disabled, ¬ op ≤ Opcode.op16 := by decide +kernel
  have hscreen : screen opcode m = .ok () m := by
    rw [screen_eq_ok, if_neg (UInt8.not_lt.mpr hle)]
    exact ⟨fun hmem => hdisabled _ hmem hle, rfl⟩
  have hoperation : operation env rest (.push opcode data) m =
      .ok () { m with stack := data :: m.stack } := by
    have hget : (get : Step Machine) m = .ok m m := rfl
    have hpush : push data m = .ok () { m with stack := data :: m.stack } := rfl
    rw [operation, bind_eq_ok_of_looks demand_eq_ok, bind_of_ok hscreen, bind_of_ok hget, hruns,
      if_pos rfl, bind_eq_ok_of_looks demand_eq_ok, hminimal, Bool.or_true, bind_of_ok hpush]
    exact ⟨decide_eq_true hshort, rfl, demandStackSize_eq_ok.mpr ⟨hsize, rfl⟩⟩
  rw [operations, Op.decode_append hop hdata rest]
  exact bind_of_ok hoperation

theorem operations_nil (fuel : Nat) : operations env fuel [] m = .ok () m := by
  cases fuel <;> rfl

end Step

/-- A run goes through if the operations do, within the limit on scripts, and no conditional is
left open. -/
theorem run_eq_ok {env : Env} {s : Script} {stack : List Bytes} {trace : List Event} {m : Machine}
    {a : Unit} :
    run env s stack trace = .ok a m ↔ s.size ≤ maxScriptSize ∧
      Step.operations env s.size s.bytes (Machine.start stack s trace) = .ok () m ∧
      m.branches = [] := by
  rw [run, Step.script, bind_eq_ok_of_looks Step.demand_eq_ok, decide_eq_true_eq, bind_eq_ok]
  refine and_congr_right' ?_
  constructor
  · rintro ⟨_, w, hops, hend⟩
    obtain ⟨hclosed, rfl⟩ := Step.demand_eq_ok.mp hend
    exact ⟨hops, List.isEmpty_iff.mp hclosed⟩
  · rintro ⟨hops, hclosed⟩
    exact ⟨(), m, hops, Step.demand_eq_ok.mpr ⟨List.isEmpty_iff.mpr hclosed, rfl⟩⟩

end StakeChain.Eval
