/-
How large the stacks of a script get, and why no script is at fault.

An operation is over when both stacks together were found to hold no more
items than they may, so their number needs no further thought. No such check
is made of the size of the items. It holds because every item was pushed with
a size that was looked at, is a number or a digest, or was on one of the stacks
before, and so the instructions are gone through once, each of them with what
it knows of the stack.

What an instruction knows is how many items there are: it asks for as many as
it reaches for, and then reaches no deeper. So the same list of instructions
shows that none of them reaches below the bottom, and since they read numbers of
at most five bytes, that no number leaves the width in which it is kept. The
only faults are those that the checker gives for an answer. For this nothing has
to be known of the items themselves, so the list is gone through for any kind of
items that instructions do not leave: those of a size that may be pushed for the
limits, and all for the faults.
-/
import StakeChain.Eval.Step
import StakeChain.Proofs.Execution
import StakeChain.Proofs.HeightPush

namespace StakeChain

/-! ## The size of numbers -/

namespace ScriptNumber

theorem length_signed_le (negative : Bool) (bs : Bytes) :
    (signed negative bs).length ≤ bs.length + 1 := by
  induction bs with
  | nil => exact Nat.zero_le _
  | cons b rest ih =>
      cases rest with
      | nil =>
          rw [signed]
          split
          · exact Nat.le_refl 2
          · exact Nat.le_succ 1
      | cons c rest => exact Nat.succ_le_succ ih

/-- A number of 64 bits takes nine bytes at most. -/
theorem length_encode_of_fits {n : Int} (h : fitsInt64 n) : (encode n).length ≤ 9 := by
  have hfits : Int64.minValue.toInt ≤ n ∧ n ≤ Int64.maxValue.toInt := by
    simpa [fitsInt64] using h
  have hmin : Int64.minValue.toInt = -(2 ^ 63) := by decide
  have hmax : Int64.maxValue.toInt = 2 ^ 63 - 1 := by decide
  have habs : n.natAbs < 256 ^ 8 := by omega
  exact (length_signed_le _ _).trans (Nat.succ_le_succ (length_magnitude_le habs))

/-- A number that was read from so many bytes is as small as they allow. -/
theorem natAbs_value_lt (bs : Bytes) : (value bs).natAbs < 256 ^ bs.length := by
  have hlt := Bytes.toNatLE_lt bs
  rw [value]
  split
  · exact Nat.pow_pos (by decide)
  · dsimp only
    split
    · rw [Int.natAbs_neg, Int.natAbs_natCast]
      omega
    · rw [Int.natAbs_natCast]
      exact hlt

theorem natAbs_lt_of_decode {bs : Bytes} {minimal : Bool} {width : Nat} {n : Int}
    (h : decode bs minimal width = some n) : n.natAbs < 256 ^ width := by
  rw [decode] at h
  split at h
  · cases h
  · next hlength =>
      split at h
      · cases h
      · cases h
        refine Nat.lt_of_lt_of_le (natAbs_value_lt bs) ?_
        exact Nat.pow_le_pow_right (by decide) (Nat.le_of_not_lt hlength)

end ScriptNumber

theorem fitsInt64_of_natAbs_lt {n : Int} (h : n.natAbs < 2 ^ 63) : fitsInt64 n := by
  have hmin : Int64.minValue.toInt = -(2 ^ 63) := by decide
  have hmax : Int64.maxValue.toInt = 2 ^ 63 - 1 := by decide
  rw [fitsInt64, hmin, hmax, Bool.and_eq_true, decide_eq_true_iff, decide_eq_true_iff]
  omega

/-- The checker has an answer to every question, apart from some faults. -/
structure Checker.Answers (c : Checker) (faults : Fault → Prop) : Prop where
  signature : ∀ {sig key code version f}, c.signature sig key code version = .error f → faults f
  lockTime : ∀ {demanded f}, c.lockTime demanded = .error f → faults f
  sequence : ∀ {demanded f}, c.sequence demanded = .error f → faults f

theorem Checker.answers_true (c : Checker) : c.Answers fun _ => True :=
  ⟨fun _ => trivial, fun _ => trivial, fun _ => trivial⟩

namespace Eval

open Stateful

/-! ## How steps end -/

/-- Where it went through, it is with what is asked; where it ended early, with a verdict, or with
one of some faults. -/
inductive Ends {σ α : Type} (faults : Fault → Prop) (post : α → σ → Prop) :
    EStateM.Result Halt σ α → Prop
  | ok {a : α} {s : σ} : post a s → Ends faults post (.ok a s)
  | verdict {e : ScriptError} {s : σ} : Ends faults post (.error (.error e) s)
  | fault {f : Fault} {s : σ} : faults f → Ends faults post (.error (.fault f) s)

namespace Ends

variable {σ α β : Type} {faults : Fault → Prop} {post other : α → σ → Prop}
  {last : β → σ → Prop} {t : EStateM Halt σ α} {s : σ}

theorem mono {r : EStateM.Result Halt σ α} (h : Ends faults post r)
    (himp : ∀ a s, post a s → other a s) : Ends faults other r := by
  cases h with
  | ok h => exact .ok (himp _ _ h)
  | verdict => exact .verdict
  | fault h => exact .fault h

theorem bind {f : α → EStateM Halt σ β} (ht : Ends faults post (t s))
    (hf : ∀ a u, post a u → Ends faults last (f a u)) : Ends faults last ((t >>= f) s) := by
  cases h : t s with
  | ok a u =>
      rw [h] at ht
      rw [bind_of_ok h]
      cases ht with
      | ok ha => exact hf a u ha
  | error e u =>
      rw [h] at ht
      rw [bind_of_error h]
      cases ht with
      | verdict => exact .verdict
      | fault hfault => exact .fault hfault

theorem pure {a : α} (h : post a s) : Ends faults post ((Pure.pure a : EStateM Halt σ α) s) :=
  .ok h

theorem get_bind {f : σ → EStateM Halt σ α} (h : Ends faults post (f s s)) :
    Ends faults post ((get >>= f) s) :=
  h

theorem modify_bind {k : σ → σ} {f : PUnit → EStateM Halt σ α}
    (h : Ends faults post (f ⟨⟩ (k s))) : Ends faults post ((modify k >>= f) s) :=
  h

theorem modify {k : σ → σ} {post : PUnit → σ → Prop} (h : post ⟨⟩ (k s)) :
    Ends faults post ((modify k : EStateM Halt σ PUnit) s) :=
  .ok h

theorem ite {c : Prop} [Decidable c] {u : EStateM Halt σ α} (ht : c → Ends faults post (t s))
    (hu : ¬c → Ends faults post (u s)) : Ends faults post ((if c then t else u) s) := by
  split
  · next h => exact ht h
  · next h => exact hu h

/-- What is known where it went through. -/
theorem of_ok {r : EStateM.Result Halt σ α} {a : α} (h : Ends faults post r) (hr : r = .ok a s) :
    post a s := by
  subst hr
  cases h with
  | ok h => exact h

/-- What is known where it ended with a fault. -/
theorem of_fault {r : EStateM.Result Halt σ α} {f : Fault} (h : Ends faults post r)
    (hr : r = .error (.fault f) s) : faults f := by
  subst hr
  cases h with
  | fault h => exact h

end Ends

/-! ## What is known of the stacks -/

/-- Of a size that may be pushed. -/
def IsShort (item : Bytes) : Prop := item.length ≤ maxElementSize

/-- A kind of items that instructions do not leave, on stacks up to a limit: whatever is short is
of it, and so are the lengths of such stacks and of its own items, as numbers. -/
structure Closed (kind : Bytes → Prop) (limit : Nat) : Prop where
  short : ∀ item, IsShort item → kind item
  depth : ∀ n ≤ limit, kind (ScriptNumber.encode n)
  size : ∀ item, kind item → kind (ScriptNumber.encode item.length)

/-- A length that fits 64 bits is a short number. -/
theorem isShort_encode {n : Nat} (h : n < 2 ^ 63) : IsShort (ScriptNumber.encode n) := by
  have hfits : fitsInt64 n := fitsInt64_of_natAbs_lt h
  exact (ScriptNumber.length_encode_of_fits hfits).trans (by decide)

theorem closed_isShort {limit : Nat} (h : limit < 2 ^ 63) : Closed IsShort limit where
  short _ hitem := hitem
  depth _ hn := isShort_encode (Nat.lt_of_le_of_lt hn h)
  size _ hitem := isShort_encode (Nat.lt_of_le_of_lt hitem (by decide))

/-- Where nothing is asked of the items, nothing is asked of the stacks. -/
theorem closed_true (limit : Nat) : Closed (fun _ => True) limit :=
  ⟨fun _ _ => trivial, fun _ _ => trivial, fun _ _ => trivial⟩

/-- All items on both stacks are of a kind. -/
structure Machine.Carries (kind : Bytes → Prop) (m : Machine) : Prop where
  stack : ∀ item ∈ m.stack, kind item
  alt : ∀ item ∈ m.alt, kind item

/-- They are, and there are at least so many on the main stack. -/
structure Machine.Holds (kind : Bytes → Prop) (n : Nat) (m : Machine) : Prop
    extends m.Carries kind where
  reach : n ≤ m.stack.length

namespace Machine

variable {kind : Bytes → Prop} {n k : Nat} {m : Machine} {items : List Bytes} {item : Bytes}

theorem Carries.holds (h : m.Carries kind) : m.Holds kind 0 :=
  ⟨h, Nat.zero_le _⟩

theorem Carries.congr {u : Machine} (h : m.Carries kind)
    (hu : u.stack = m.stack ∧ u.alt = m.alt) : u.Carries kind :=
  ⟨hu.1 ▸ h.stack, hu.2 ▸ h.alt⟩

theorem Holds.mono (h : m.Holds kind n) (hle : k ≤ n) : m.Holds kind k :=
  ⟨h.toCarries, hle.trans h.reach⟩

theorem Holds.withStack (h : m.Holds kind n) (hitems : ∀ item ∈ items, item ∈ m.stack)
    (hlength : k ≤ items.length) : ({ m with stack := items }).Holds kind k :=
  ⟨⟨fun item hitem => h.stack item (hitems item hitem), h.alt⟩, hlength⟩

theorem Holds.push (h : m.Holds kind n) (hitem : kind item) :
    ({ m with stack := item :: m.stack }).Holds kind (n + 1) := by
  refine ⟨⟨?_, h.alt⟩, Nat.succ_le_succ h.reach⟩
  intro other hother
  rcases List.mem_cons.mp hother with rfl | hother
  · exact hitem
  · exact h.stack other hother

end Machine

namespace Step

open Machine

variable {faults : Fault → Prop} {kind : Bytes → Prop} {limit n k : Nat} {m : Machine}

/-! ## Parts of instructions -/

theorem ends_demand (c : Bool) (e : ScriptError) :
    Ends faults (fun _ u => u = m ∧ c) (demand c e m) := by
  cases c with
  | true => exact .pure ⟨rfl, rfl⟩
  | false => exact .verdict

/-- A demand leaves what is known. -/
theorem ends_demand_holds (h : m.Holds kind n) (c : Bool) (e : ScriptError) :
    Ends faults (fun _ u => u.Holds kind n) (demand c e m) :=
  (ends_demand c e).mono fun _ _ hu => hu.1 ▸ h

theorem ends_stack : Ends faults (fun items u => u = m ∧ items = m.stack) (stack m) :=
  .ok ⟨rfl, rfl⟩

theorem ends_require (h : m.Carries kind) (n : Nat) :
    Ends faults (fun _ u => u.Holds kind n) (require n m) := by
  refine ends_stack.bind ?_
  rintro items u ⟨rfl, rfl⟩
  refine (ends_demand _ _).mono ?_
  rintro _ w ⟨rfl, hle⟩
  exact ⟨h, of_decide_eq_true hle⟩

theorem ends_top (h : m.Holds kind n) {depth : Nat} (hpos : 0 < depth) (hle : depth ≤ n) :
    Ends faults (fun item u => u.Holds kind n ∧ kind item) (top depth m) := by
  have hlt : depth - 1 < m.stack.length := by
    have := h.reach
    omega
  have hget : m.stack[depth - 1]? = some m.stack[depth - 1] := List.getElem?_eq_getElem hlt
  refine .ite (fun hzero => absurd hzero (by omega)) fun _ => ends_stack.bind ?_
  rintro items u ⟨rfl, rfl⟩
  rw [hget]
  exact .pure ⟨h, h.stack _ (List.getElem_mem hlt)⟩

theorem ends_push (h : m.Holds kind n) {item : Bytes} (hitem : kind item) :
    Ends faults (fun _ u => u.Holds kind (n + 1)) (push item m) :=
  .modify (h.push hitem)

theorem ends_setStack (h : m.Holds kind n) {items : List Bytes}
    (hitems : ∀ item ∈ items, item ∈ m.stack) (hlength : k ≤ items.length) :
    Ends faults (fun _ u => u.Holds kind k) (setStack items m) :=
  .modify (h.withStack hitems hlength)

theorem ends_pop (h : m.Carries kind) :
    Ends faults (fun item u => u.Carries kind ∧ kind item) (pop m) := by
  refine ends_stack.bind ?_
  rintro items u ⟨rfl, rfl⟩
  cases hstack : u.stack with
  | nil => exact .verdict
  | cons item rest =>
      have hmem : ∀ other ∈ rest, other ∈ u.stack := by
        intro other hother
        rw [hstack]
        exact List.mem_cons_of_mem _ hother
      refine (ends_setStack h.holds hmem (Nat.zero_le _)).bind fun _ w hw => ?_
      refine .pure ⟨hw.toCarries, ?_⟩
      exact h.stack item (hstack ▸ List.mem_cons_self)

theorem ends_discard (h : m.Holds kind (n + 1)) :
    Ends faults (fun _ u => u.Holds kind n) (discard m) := by
  have hlength : n ≤ (m.stack.drop 1).length := by
    have := h.reach
    rw [List.length_drop]
    omega
  exact .modify (h.withStack (fun _ => List.mem_of_mem_drop) hlength)

theorem ends_dropTop (h : m.Holds kind n) :
    Ends faults (fun _ u => u.Carries kind) (dropTop n m) := by
  refine ends_stack.bind ?_
  rintro items u ⟨rfl, rfl⟩
  refine .ite (fun hlt => absurd h.reach (Nat.not_le.mpr hlt)) fun _ => ?_
  exact (ends_setStack h (fun _ => List.mem_of_mem_drop) (Nat.zero_le _)).mono
    fun _ _ hu => hu.toCarries

theorem ends_removeAt (h : m.Holds kind (n + 1)) {depth : Nat} (hpos : 0 < depth)
    (hle : depth ≤ n + 1) :
    Ends faults (fun item u => u.Holds kind n ∧ kind item) (removeAt depth m) := by
  refine (ends_top h hpos hle).bind ?_
  rintro item u ⟨hu, hitem⟩
  refine ends_stack.bind ?_
  rintro items w ⟨rfl, rfl⟩
  have hlength : n ≤ (w.stack.eraseIdx (depth - 1)).length := by
    have := hu.reach
    rw [List.length_eraseIdx]
    split <;> omega
  exact (ends_setStack hu (fun _ => List.mem_of_mem_eraseIdx) hlength).bind
    fun _ v hv => .pure ⟨hv, hitem⟩

theorem ends_insertBelow (h : m.Holds kind n) {item : Bytes} (hitem : kind item) :
    Ends faults (fun _ u => u.Carries kind) (insertBelow n item m) := by
  refine ends_stack.bind ?_
  rintro items u ⟨rfl, rfl⟩
  refine .ite (fun hlt => absurd h.reach (Nat.not_le.mpr hlt)) fun _ => .modify ?_
  refine ⟨?_, h.alt⟩
  intro other hother
  rcases List.mem_append.mp hother with hother | hother
  · exact h.stack other (List.mem_of_mem_take hother)
  · rcases List.mem_cons.mp hother with rfl | hother
    · exact hitem
    · exact h.stack other (List.mem_of_mem_drop hother)

theorem ends_swapAt (h : m.Holds kind n) {d e : Nat} (hd : 0 < d) (hdn : d ≤ n) (he : 0 < e)
    (hen : e ≤ n) : Ends faults (fun _ u => u.Holds kind n) (swapAt d e m) := by
  refine (ends_top h hd hdn).bind ?_
  rintro a u ⟨hu, ha⟩
  refine (ends_top hu he hen).bind ?_
  rintro b w ⟨hw, hb⟩
  refine ends_stack.bind ?_
  rintro items v ⟨rfl, rfl⟩
  refine .modify ⟨⟨?_, hw.alt⟩, ?_⟩
  · intro item hitem
    rcases List.mem_or_eq_of_mem_set hitem with hitem | rfl
    · rcases List.mem_or_eq_of_mem_set hitem with hitem | rfl
      · exact hw.stack item hitem
      · exact hb
    · exact ha
  · change n ≤ ((v.stack.set (d - 1) b).set (e - 1) a).length
    rw [List.length_set, List.length_set]
    exact hw.reach

/-! ## Numbers -/

theorem ends_number (h : m.Holds kind n) (env : Env) (item : Bytes) (width : Nat) :
    Ends faults (fun v u => u.Holds kind n ∧ v.natAbs < 256 ^ width)
      (number env item width m) := by
  cases hdecode : ScriptNumber.decode item env.flags.minimalData width with
  | some v =>
      rw [number, hdecode]
      exact .pure ⟨h, ScriptNumber.natAbs_lt_of_decode hdecode⟩
  | none =>
      rw [number, hdecode]
      exact .verdict

theorem ends_pushNumber (hk : Closed kind limit) (h : m.Holds kind n) {v : Int}
    (hv : v.natAbs < 2 ^ 63) :
    Ends faults (fun _ u => u.Holds kind (n + 1)) (pushNumber v m) := by
  have hfits := fitsInt64_of_natAbs_lt hv
  refine .ite (fun _ => ends_push h (hk.short _ ?_)) fun hnot => absurd hfits hnot
  exact (ScriptNumber.length_encode_of_fits hfits).trans (by decide)

theorem ends_pushBool (hk : Closed kind limit) (h : m.Holds kind n) (b : Bool) :
    Ends faults (fun _ u => u.Holds kind (n + 1)) (pushBool b m) := by
  refine ends_push h (hk.short _ ?_)
  cases b with
  | true => exact Nat.le_of_lt (by decide)
  | false => exact Nat.zero_le _

theorem natAbs_truth_le (b : Bool) : (truth b).natAbs ≤ 1 := by
  cases b with
  | true => exact Nat.le_refl 1
  | false => exact Nat.zero_le 1

theorem natAbs_unary_le (f : Unary) (v : Int) : (f.apply v).natAbs ≤ v.natAbs + 1 := by
  cases f with
  | isZero | isNonzero => exact (natAbs_truth_le _).trans (Nat.le_add_left 1 _)
  | add1 | sub1 | negate | abs =>
      simp only [Unary.apply]
      omega

theorem natAbs_binary_le (f : Binary) (a b : Int) :
    (f.apply a b).natAbs ≤ a.natAbs + b.natAbs + 1 := by
  cases f with
  | add | sub | min | max =>
      simp only [Binary.apply]
      omega
  | _ => exact (natAbs_truth_le _).trans (Nat.le_add_left 1 _)

theorem isShort_hashing (h : Hashing) (item : Bytes) : IsShort (h.apply item) := by
  cases h with
  | ripemd160 => exact (StakeChain.ripemd160 item).length_bytes.trans_le (by decide)
  | sha1 => exact (StakeChain.sha1 item).length_bytes.trans_le (by decide)
  | sha256 => exact (StakeChain.sha256 item).length_bytes.trans_le (by decide)
  | hash160 => exact (StakeChain.hash160 item).length_bytes.trans_le (by decide)
  | hash256 => exact (StakeChain.hash256 item).length_bytes.trans_le (by decide)

/-! ## Moving items -/

theorem ends_copyUp (h : m.Holds kind n) {depth : Nat} (hpos : 0 < depth) (hle : depth ≤ n)
    (count : Nat) : Ends faults (fun _ u => u.Holds kind n) (copyUp depth count m) := by
  induction count generalizing m with
  | zero => exact .pure h
  | succ count ih =>
      refine (ends_top h hpos hle).bind ?_
      rintro item u ⟨hu, hitem⟩
      exact (ends_push hu hitem).bind fun _ w hw => ih (hw.mono (Nat.le_succ n))

theorem ends_moveUp (h : m.Holds kind (n + 1)) {depth : Nat} (hpos : 0 < depth)
    (hle : depth ≤ n + 1) (count : Nat) :
    Ends faults (fun _ u => u.Holds kind (n + 1)) (moveUp depth count m) := by
  induction count generalizing m with
  | zero => exact .pure h
  | succ count ih =>
      refine (ends_removeAt h hpos hle).bind ?_
      rintro item u ⟨hu, hitem⟩
      exact (ends_push hu hitem).bind fun _ w hw => ih hw

theorem ends_items (h : m.Holds kind n) {depth : Nat} (hpos : 0 < depth) (count : Nat)
    (hle : depth + count ≤ n + 1) :
    Ends faults (fun _ u => u.Holds kind n) (items depth count m) := by
  induction count generalizing m depth with
  | zero => exact .pure h
  | succ count ih =>
      refine (ends_top h hpos (by omega)).bind ?_
      rintro item u ⟨hu, -⟩
      refine (ih hu (Nat.succ_pos depth) (by omega)).bind ?_
      intro rest w hw
      exact .pure hw

/-! ## Questions to the checker -/

section

variable {env : Env}

theorem ends_note (h : m.Holds kind n) (e : Event) :
    Ends faults (fun _ u => u.Holds kind n) (note e m) :=
  .modify ⟨⟨h.stack, h.alt⟩, h.reach⟩

theorem ends_answered (h : m.Holds kind n) {a : Answer} (ha : ∀ f, a = .error f → faults f) :
    Ends faults (fun _ u => u.Holds kind n) (answered a m) := by
  cases a with
  | ok b => exact .pure h
  | error f => exact .fault (ha f rfl)

theorem ends_askSignature (hc : env.checker.Answers faults) (h : m.Holds kind n) (sig key : Bytes)
    (code : Script) : Ends faults (fun _ u => u.Holds kind n) (askSignature env sig key code m) :=
  (ends_note h _).bind fun _ _ hu => ends_answered hu fun _ => hc.signature

theorem ends_askLockTime (hc : env.checker.Answers faults) (h : m.Holds kind n) (demanded : Int) :
    Ends faults (fun _ u => u.Holds kind n) (askLockTime env demanded m) :=
  (ends_note h _).bind fun _ _ hu => ends_answered hu fun _ => hc.lockTime

theorem ends_askSequence (hc : env.checker.Answers faults) (h : m.Holds kind n) (demanded : Int) :
    Ends faults (fun _ u => u.Holds kind n) (askSequence env demanded m) :=
  (ends_note h _).bind fun _ _ hu => ends_answered hu fun _ => hc.sequence

theorem ends_askColdStake (h : m.Holds kind n) :
    Ends faults (fun _ u => u.Holds kind n) (askColdStake env m) :=
  (ends_note h _).bind fun _ _ hu => .pure hu

/-! ## Signature checks -/

/-- Counting leaves the stacks. -/
theorem ends_countOps (k : Nat) :
    Ends faults (fun _ u => u.stack = m.stack ∧ u.alt = m.alt) (countOps k m) := by
  refine .modify_bind (.get_bind ((ends_demand _ _).mono ?_))
  rintro _ u ⟨rfl, -⟩
  exact ⟨rfl, rfl⟩

theorem ends_demandSignatureEncoding (h : m.Holds kind n) (sig : Bytes) :
    Ends faults (fun _ u => u.Holds kind n) (demandSignatureEncoding env sig m) := by
  refine .ite (fun _ => .pure h) fun _ => ?_
  refine (ends_demand_holds h _ _).bind fun _ u hu => ?_
  exact (ends_demand_holds hu _ _).bind fun _ w hw => ends_demand_holds hw _ _

theorem ends_demandKeyEncoding (h : m.Holds kind n) (key : Bytes) :
    Ends faults (fun _ u => u.Holds kind n) (demandKeyEncoding env key m) :=
  (ends_demand_holds h _ _).bind fun _ _ hu => ends_demand_holds hu _ _

theorem ends_scriptCode (h : m.Holds kind n) (sigs : List Bytes) :
    Ends faults (fun _ u => u.Holds kind n) (scriptCode env sigs m) := by
  refine .get_bind ?_
  cases env.version with
  | legacy => exact .pure h
  | witnessV0 => exact .pure h

/-- The end of an instruction that pushes a truth value and may demand it. -/
theorem ends_result (hk : Closed kind limit) (h : m.Carries kind) (b verify condition : Bool)
    (e : ScriptError) :
    Ends faults (fun _ u => u.Carries kind)
      ((pushBool b >>= fun _ =>
        if verify then demand condition e >>= fun _ => discard else pure ()) m) := by
  refine (ends_pushBool hk h.holds b).bind fun _ u hu => ?_
  refine .ite (fun _ => ?_) fun _ => .pure hu.toCarries
  refine (ends_demand_holds hu _ _).bind fun _ w hw => ?_
  exact (ends_discard hw).mono fun _ _ hv => hv.toCarries

theorem ends_checkSig (hc : env.checker.Answers faults) (hk : Closed kind limit)
    (h : m.Carries kind) (verify : Bool) :
    Ends faults (fun _ u => u.Carries kind) (checkSig env verify m) := by
  refine (ends_require h 2).bind fun _ m hm => ?_
  refine (ends_top hm (by decide) (by decide)).bind fun sig m hsig => ?_
  refine (ends_top hsig.1 (by decide) (by decide)).bind fun key m hkey => ?_
  refine (ends_scriptCode hkey.1 _).bind fun code m hm => ?_
  refine (ends_demandSignatureEncoding hm sig).bind fun _ m hm => ?_
  refine (ends_demandKeyEncoding hm key).bind fun _ m hm => ?_
  refine (ends_askSignature hc hm sig key code).bind fun valid m hm => ?_
  refine (ends_demand_holds hm _ _).bind fun _ m hm => ?_
  exact (ends_dropTop hm).bind fun _ m hm => ends_result hk hm valid verify valid _

/-- While there are as many keys as signatures left, both are found on the stack. -/
theorem ends_matchSigs (hc : env.checker.Answers faults) (code : Script)
    {keys keyAt sigAt sigs : Nat} (h : m.Holds kind n) (hle : sigs ≤ keys) (hkeyAt : 0 < keyAt)
    (hkeys : keyAt + keys ≤ n + 1) (hsigAt : 0 < sigAt) (hsigs : sigAt + sigs ≤ n + 1) :
    Ends faults (fun _ u => u.Holds kind n) (matchSigs env code keys keyAt sigAt sigs m) := by
  induction keys generalizing m keyAt sigAt sigs with
  | zero =>
      obtain rfl := Nat.le_zero.mp hle
      exact .pure h
  | succ keys ih =>
      cases sigs with
      | zero => exact .pure h
      | succ sigs =>
          refine (ends_top h hsigAt (by omega)).bind fun sig m hsig => ?_
          refine (ends_top hsig.1 hkeyAt (by omega)).bind fun key m hkey => ?_
          refine (ends_demandSignatureEncoding hkey.1 sig).bind fun _ m hm => ?_
          refine (ends_demandKeyEncoding hm key).bind fun _ m hm => ?_
          refine (ends_askSignature hc hm sig key code).bind fun valid m hm => ?_
          refine .ite (fun _ => .pure hm) fun hleft => ?_
          have hkeys : keyAt + 1 + keys ≤ n + 1 := by omega
          have hleft := Nat.not_lt.mp hleft
          cases valid with
          | true =>
              have hsigs : sigAt + 1 + sigs ≤ n + 1 := by omega
              exact ih hm hleft (Nat.succ_pos _) hkeys (Nat.succ_pos _) hsigs
          | false => exact ih hm hleft (Nat.succ_pos _) hkeys hsigAt hsigs

theorem ends_dropArguments (valid : Bool) {count : Nat} (h : m.Holds kind count)
    (beforeSigs : Nat) :
    Ends faults (fun _ u => u.Carries kind) (dropArguments env valid count beforeSigs m) := by
  induction count generalizing m beforeSigs with
  | zero => exact .pure h.toCarries
  | succ count ih =>
      have hrest : ∀ {m : Machine}, m.Holds kind (count + 1) →
          Ends faults (fun _ u => u.Carries kind) ((discard >>= fun _ =>
            dropArguments env valid count (beforeSigs - 1)) m) :=
        fun hm => (ends_discard hm).bind fun _ m hm => ih hm _
      refine .ite (fun _ => ?_) fun _ => hrest h
      refine (ends_top h Nat.one_pos (Nat.le_add_left 1 count)).bind fun item m hm => ?_
      exact (ends_demand_holds hm.1 _ _).bind fun _ m hm => hrest hm

theorem ends_count (h : m.Holds kind n) {depth : Nat} (hpos : 0 < depth) (hle : depth ≤ n)
    (limit : Nat) (e : ScriptError) :
    Ends faults (fun found u => u.Holds kind n ∧ found ≤ limit) (count env depth limit e m) := by
  refine (ends_top h hpos hle).bind fun item m hm => ?_
  refine (ends_number hm.1 env item _).bind fun v m hv => ?_
  refine .ite (fun _ => .verdict) fun hrange => .pure ⟨hv.1, ?_⟩
  omega

theorem ends_checkMultisig (hc : env.checker.Answers faults) (hk : Closed kind limit)
    (h : m.Carries kind) (verify : Bool) :
    Ends faults (fun _ u => u.Carries kind) (checkMultisig env verify m) := by
  refine (ends_require h 1).bind fun _ m hm => ?_
  refine (ends_count hm Nat.one_pos (Nat.le_refl 1) _ _).bind fun keys m hm => ?_
  refine (ends_countOps keys).bind fun _ u hu => ?_
  refine (ends_require (hm.1.toCarries.congr hu) (keys + 2)).bind fun _ m hm => ?_
  refine (ends_count hm (Nat.succ_pos _) (Nat.le_refl _) keys _).bind fun sigs m hsigs => ?_
  refine (ends_require hsigs.1.toCarries (keys + sigs + 3)).bind fun _ m hm => ?_
  refine (ends_items hm (Nat.succ_pos _) sigs (by omega)).bind fun found m hm => ?_
  refine (ends_scriptCode hm found).bind fun code m hm => ?_
  refine (ends_matchSigs hc code hm hsigs.2 (by decide) (by omega) (Nat.succ_pos _)
    (by omega)).bind fun valid m hm => ?_
  refine (ends_dropArguments valid (hm.mono (Nat.sub_le _ 1)) _).bind fun _ m hm => ?_
  refine (ends_require hm 1).bind fun _ m hm => ?_
  refine (ends_top hm Nat.one_pos (Nat.le_refl 1)).bind fun extra m hm => ?_
  refine (ends_demand_holds hm.1 _ _).bind fun _ m hm => ?_
  exact (ends_discard hm).bind fun _ m hm => ends_result hk hm.toCarries valid verify valid _

/-! ## Instructions -/

theorem ends_upgradable (h : m.Carries kind) :
    Ends faults (fun _ u => u.Carries kind) (upgradable env m) :=
  (ends_demand_holds h.holds _ _).mono fun _ _ hu => hu.toCarries

theorem ends_checkLockTime (hc : env.checker.Answers faults) (h : m.Carries kind) :
    Ends faults (fun _ u => u.Carries kind) (checkLockTime env m) := by
  refine .ite (fun _ => ?_) fun _ => ends_upgradable h
  refine (ends_require h 1).bind fun _ m hm => ?_
  refine (ends_top hm Nat.one_pos (Nat.le_refl 1)).bind fun item m hm => ?_
  refine (ends_number hm.1 env item _).bind fun demanded m hm => ?_
  refine (ends_demand_holds hm.1 _ _).bind fun _ m hm => ?_
  refine (ends_askLockTime hc hm demanded).bind fun locked m hm => ?_
  exact (ends_demand_holds hm _ _).mono fun _ _ hu => hu.toCarries

theorem ends_checkSequence (hc : env.checker.Answers faults) (h : m.Carries kind) :
    Ends faults (fun _ u => u.Carries kind) (checkSequence env m) := by
  refine .ite (fun _ => ?_) fun _ => ends_upgradable h
  refine (ends_require h 1).bind fun _ m hm => ?_
  refine (ends_top hm Nat.one_pos (Nat.le_refl 1)).bind fun item m hm => ?_
  refine (ends_number hm.1 env item _).bind fun demanded m hm => ?_
  refine (ends_demand_holds hm.1 _ _).bind fun _ m hm => ?_
  refine .ite (fun _ => ?_) fun _ => .pure hm.toCarries
  refine (ends_askSequence hc hm demanded).bind fun locked m hm => ?_
  exact (ends_demand_holds hm _ _).mono fun _ _ hu => hu.toCarries

theorem ends_checkColdStake (h : m.Carries kind) :
    Ends faults (fun _ u => u.Carries kind) (checkColdStake env m) := by
  refine .ite (fun _ => ?_) fun _ => ends_upgradable h
  refine (ends_askColdStake h.holds).bind fun staked m hm => ?_
  exact (ends_demand_holds hm _ _).mono fun _ _ hu => hu.toCarries

theorem ends_openBranch (h : m.Carries kind) (taken : Bool) :
    Ends faults (fun _ u => u.Carries kind) (openBranch taken m) :=
  .modify ⟨h.stack, h.alt⟩

theorem ends_conditional (h : m.Carries kind) (negated : Bool) :
    Ends faults (fun _ u => u.Carries kind) (conditional env negated m) := by
  refine .get_bind (.ite (fun _ => ?_) fun _ => ends_openBranch h false)
  refine ends_stack.bind ?_
  rintro items m ⟨rfl, rfl⟩
  refine (ends_demand _ _).bind ?_
  rintro _ m ⟨rfl, hsome⟩
  have hm : m.Holds kind 1 := by
    refine ⟨h, List.length_pos_iff.mpr ?_⟩
    intro hnil
    rw [hnil] at hsome
    cases hsome
  refine (ends_top hm Nat.one_pos (Nat.le_refl 1)).bind fun item m hm => ?_
  refine (ends_demand_holds hm.1 _ _).bind fun _ m hm => ?_
  refine (ends_discard hm).bind fun _ m hm => ?_
  exact (ends_note hm _).bind fun _ m hm => ends_openBranch hm.toCarries _

theorem ends_otherwise (h : m.Carries kind) :
    Ends faults (fun _ u => u.Carries kind) (otherwise m) := by
  refine .get_bind ?_
  cases m.branches with
  | nil => exact .verdict
  | cons b rest => exact .modify ⟨h.stack, h.alt⟩

theorem ends_endIf (h : m.Carries kind) : Ends faults (fun _ u => u.Carries kind) (endIf m) := by
  refine .get_bind ?_
  cases m.branches with
  | nil => exact .verdict
  | cons b rest => exact .modify ⟨h.stack, h.alt⟩

theorem ends_fetch (h : m.Carries kind) (move : Bool) :
    Ends faults (fun _ u => u.Carries kind) (fetch env move m) := by
  refine (ends_require h 2).bind fun _ m hm => ?_
  refine (ends_top hm Nat.one_pos (by decide)).bind fun item m hm => ?_
  refine (ends_number hm.1 env item _).bind fun v m hv => ?_
  refine (ends_discard hv.1).bind fun _ m hm => ?_
  refine ends_stack.bind ?_
  rintro items m ⟨rfl, rfl⟩
  refine (ends_demand _ _).bind ?_
  rintro _ m ⟨rfl, hrange⟩
  -- the demand has found one more item than the number says
  have hreach : m.Holds kind (v.toNat + 1) := by
    rw [Bool.and_eq_true, decide_eq_true_iff, decide_eq_true_iff] at hrange
    exact ⟨hm.toCarries, hrange.2⟩
  refine .ite (fun _ => ?_) fun _ => ?_
  · exact (ends_moveUp hreach (Nat.succ_pos _) (Nat.le_refl _) 1).mono fun _ _ hu => hu.toCarries
  · exact (ends_copyUp hreach (Nat.succ_pos _) (Nat.le_refl _) 1).mono fun _ _ hu => hu.toCarries

theorem ends_equal (hk : Closed kind limit) (h : m.Carries kind) (verify : Bool) :
    Ends faults (fun _ u => u.Carries kind) (equal verify m) := by
  refine (ends_require h 2).bind fun _ m hm => ?_
  refine (ends_pop hm.toCarries).bind fun b m hb => ?_
  exact (ends_pop hb.1).bind fun a m ha => ends_result hk ha.1 (a == b) verify (a == b) _

theorem ends_binary (hk : Closed kind limit) (h : m.Carries kind) (f : Binary) (verify : Bool) :
    Ends faults (fun _ u => u.Carries kind) (binary env f verify m) := by
  refine (ends_require h 2).bind fun _ m hm => ?_
  refine (ends_top hm (by decide) (Nat.le_refl 2)).bind fun first m hm => ?_
  refine (ends_number hm.1 env first _).bind fun a m ha => ?_
  refine (ends_top ha.1 Nat.one_pos (by decide)).bind fun second m hm => ?_
  refine (ends_number hm.1 env second _).bind fun b m hb => ?_
  have hsum := natAbs_binary_le f a b
  have hfits : (f.apply a b).natAbs < 2 ^ 63 := by
    have := ha.2
    have := hb.2
    rw [numberWidth] at *
    omega
  refine (ends_dropTop hb.1).bind fun _ m hm => ?_
  refine (ends_pushNumber hk hm.holds hfits).bind fun _ m hm => ?_
  refine .ite (fun _ => ?_) fun _ => .pure hm.toCarries
  refine (ends_top hm Nat.one_pos (Nat.le_refl 1)).bind fun item m hm => ?_
  refine (ends_demand_holds hm.1 _ _).bind fun _ m hm => ?_
  exact (ends_discard hm).mono fun _ _ hu => hu.toCarries

theorem ends_within (hk : Closed kind limit) (h : m.Carries kind) :
    Ends faults (fun _ u => u.Carries kind) (within env m) := by
  refine (ends_require h 3).bind fun _ m hm => ?_
  refine (ends_top hm (by decide) (Nat.le_refl 3)).bind fun first m hm => ?_
  refine (ends_number hm.1 env first _).bind fun x m hm => ?_
  refine (ends_top hm.1 (by decide) (by decide)).bind fun second m hm => ?_
  refine (ends_number hm.1 env second _).bind fun low m hm => ?_
  refine (ends_top hm.1 Nat.one_pos (by decide)).bind fun third m hm => ?_
  refine (ends_number hm.1 env third _).bind fun high m hm => ?_
  refine (ends_dropTop hm.1).bind fun _ m hm => ?_
  exact (ends_pushBool hk hm.holds _).mono fun _ _ hu => hu.toCarries

theorem natAbs_of_small {opcode : UInt8} {v : Int} (h : Instruction.ofOpcode opcode = .small v) :
    v.natAbs < 2 ^ 63 := by
  rw [Instruction.ofOpcode] at h
  split at h
  · cases h
    have := opcode.toNat_lt
    omega
  · have htable : ∀ e ∈ Instruction.table, ∀ v, e.2 ≠ .small v := by simp [Instruction.table]
    have hknown : Instruction.small v ≠ .unknown := by
      intro hunknown
      cases hunknown
    exact absurd rfl (htable _ (mem_of_lookup h hknown) v)

/-- Every instruction keeps the kind of the items, and none has a fault of its own. -/
theorem ends_execute (hc : env.checker.Answers faults) (hk : Closed kind limit)
    (h : m.Carries kind) (hlength : m.stack.length ≤ limit) (rest : Bytes) {opcode : UInt8}
    {i : Instruction} (hi : Instruction.ofOpcode opcode = i) :
    Ends faults (fun _ u => u.Carries kind) (execute env rest i m) := by
  cases i with
  | small v =>
      exact (ends_pushNumber hk h.holds (natAbs_of_small hi)).mono fun _ _ hu => hu.toCarries
  | nop => exact .pure h
  | checkLockTime => exact ends_checkLockTime hc h
  | checkSequence => exact ends_checkSequence hc h
  | checkColdStake => exact ends_checkColdStake h
  | upgradableNop => exact ends_upgradable h
  | conditional negated => exact ends_conditional h negated
  | otherwise => exact ends_otherwise h
  | endIf => exact ends_endIf h
  | verify =>
      refine (ends_require h 1).bind fun _ m hm => ?_
      refine (ends_top hm Nat.one_pos (Nat.le_refl 1)).bind fun item m hm => ?_
      refine (ends_demand_holds hm.1 _ _).bind fun _ m hm => ?_
      exact (ends_discard hm).mono fun _ _ hu => hu.toCarries
  | halt => exact .verdict
  | toAltStack =>
      refine (ends_pop h).bind fun item m hm => .modify ⟨hm.1.stack, ?_⟩
      intro other hother
      rcases List.mem_cons.mp hother with rfl | hother
      · exact hm.2
      · exact hm.1.alt other hother
  | fromAltStack =>
      refine .get_bind ?_
      cases halt : m.alt with
      | nil => exact .verdict
      | cons item others =>
          have hkind : ∀ other ∈ item :: others, kind other := halt ▸ h.alt
          have hothers : ({ m with alt := others }).Carries kind :=
            ⟨h.stack, fun other hother => hkind other (List.mem_cons_of_mem _ hother)⟩
          exact .modify_bind ((ends_push hothers.holds (hkind item List.mem_cons_self)).mono
            fun _ _ hu => hu.toCarries)
  | drop2 => exact (ends_require h 2).bind fun _ m hm => ends_dropTop hm
  | dup2 =>
      exact (ends_require h 2).bind fun _ m hm =>
        (ends_copyUp hm (by decide) (Nat.le_refl 2) 2).mono fun _ _ hu => hu.toCarries
  | dup3 =>
      exact (ends_require h 3).bind fun _ m hm =>
        (ends_copyUp hm (by decide) (Nat.le_refl 3) 3).mono fun _ _ hu => hu.toCarries
  | over2 =>
      exact (ends_require h 4).bind fun _ m hm =>
        (ends_copyUp hm (by decide) (Nat.le_refl 4) 2).mono fun _ _ hu => hu.toCarries
  | rot2 =>
      exact (ends_require h 6).bind fun _ m hm =>
        (ends_moveUp hm (by decide) (Nat.le_refl 6) 2).mono fun _ _ hu => hu.toCarries
  | swap2 =>
      refine (ends_require h 4).bind fun _ m hm => ?_
      refine (ends_swapAt hm (by decide) (Nat.le_refl 4) (by decide) (by decide)).bind
        fun _ m hm => ?_
      exact (ends_swapAt hm (by decide) (by decide) Nat.one_pos (by decide)).mono
        fun _ _ hu => hu.toCarries
  | ifDup =>
      refine (ends_require h 1).bind fun _ m hm => ?_
      refine (ends_top hm Nat.one_pos (Nat.le_refl 1)).bind fun item m hm => ?_
      refine .ite (fun _ => ?_) fun _ => .pure hm.1.toCarries
      exact (ends_push hm.1 hm.2).mono fun _ _ hu => hu.toCarries
  | depth =>
      refine ends_stack.bind ?_
      rintro items m ⟨rfl, rfl⟩
      exact (ends_push h.holds (hk.depth _ hlength)).mono fun _ _ hu => hu.toCarries
  | drop => exact (ends_pop h).bind fun _ m hm => .pure hm.1
  | dup =>
      exact (ends_require h 1).bind fun _ m hm =>
        (ends_copyUp hm Nat.one_pos (Nat.le_refl 1) 1).mono fun _ _ hu => hu.toCarries
  | nip =>
      refine (ends_require h 2).bind fun _ m hm => ?_
      exact (ends_removeAt hm (by decide) (Nat.le_refl 2)).bind fun _ m hm => .pure hm.1.toCarries
  | over1 =>
      exact (ends_require h 2).bind fun _ m hm =>
        (ends_copyUp hm (by decide) (Nat.le_refl 2) 1).mono fun _ _ hu => hu.toCarries
  | fetch move => exact ends_fetch h move
  | rot =>
      refine (ends_require h 3).bind fun _ m hm => ?_
      refine (ends_swapAt hm (by decide) (Nat.le_refl 3) (by decide) (by decide)).bind
        fun _ m hm => ?_
      exact (ends_swapAt hm (by decide) (by decide) Nat.one_pos (by decide)).mono
        fun _ _ hu => hu.toCarries
  | swap =>
      exact (ends_require h 2).bind fun _ m hm =>
        (ends_swapAt hm (by decide) (Nat.le_refl 2) Nat.one_pos (by decide)).mono
          fun _ _ hu => hu.toCarries
  | tuck =>
      refine (ends_require h 2).bind fun _ m hm => ?_
      exact (ends_top hm Nat.one_pos (by decide)).bind fun item m hm =>
        ends_insertBelow hm.1 hm.2
  | size =>
      refine (ends_require h 1).bind fun _ m hm => ?_
      refine (ends_top hm Nat.one_pos (Nat.le_refl 1)).bind fun item m hm => ?_
      exact (ends_push hm.1 (hk.size _ hm.2)).mono fun _ _ hu => hu.toCarries
  | equal verify => exact ends_equal hk h verify
  | unary f =>
      refine (ends_require h 1).bind fun _ m hm => ?_
      refine (ends_top hm Nat.one_pos (Nat.le_refl 1)).bind fun item m hm => ?_
      refine (ends_number hm.1 env item _).bind fun v m hv => ?_
      have hfits : (f.apply v).natAbs < 2 ^ 63 :=
        ((natAbs_unary_le f v).trans (Nat.succ_le_of_lt hv.2)).trans_lt (by decide)
      refine (ends_discard hv.1).bind fun _ m hm => ?_
      exact (ends_pushNumber hk hm hfits).mono fun _ _ hu => hu.toCarries
  | binary f verify => exact ends_binary hk h f verify
  | within => exact ends_within hk h
  | hashing f =>
      refine (ends_pop h).bind fun item m hm => ?_
      have hshort := hk.short _ (isShort_hashing f item)
      exact (ends_push hm.1.holds hshort).mono fun _ _ hu => hu.toCarries
  | codeSeparator =>
      have hm : ({ m with code := rest }).Carries kind := ⟨h.stack, h.alt⟩
      exact .modify_bind ((ends_note hm.holds _).mono fun _ _ hu => hu.toCarries)
  | checkSig verify => exact ends_checkSig hc hk h verify
  | checkMultisig verify => exact ends_checkMultisig hc hk h verify
  | unknown => exact .verdict

end

end Step

/-! ## Operations and scripts -/

/-- The stacks hold no more items than that, all of a kind. -/
structure Machine.Bounded (kind : Bytes → Prop) (limit : Nat) (m : Machine) : Prop
    extends m.Carries kind where
  count : m.stack.length + m.alt.length ≤ limit

/-- The stacks hold no more items than that, all of a size that may be pushed. -/
abbrev Machine.Within (limit : Nat) (m : Machine) : Prop := m.Bounded IsShort limit

namespace Step

open Machine

variable {env : Env} {faults : Fault → Prop} {kind : Bytes → Prop} {limit : Nat} {m : Machine}

/-- So does the look at an operation before it runs. -/
theorem ends_screen (opcode : UInt8) :
    Ends faults (fun _ u => u.stack = m.stack ∧ u.alt = m.alt) (screen opcode m) := by
  have hdemand : ∀ {u : Machine}, u.stack = m.stack ∧ u.alt = m.alt →
      Ends faults (fun _ w => w.stack = m.stack ∧ w.alt = m.alt)
        (demand (!Opcode.isDisabled opcode) .disabledOpcode u) :=
    fun hu => (ends_demand _ _).mono fun _ w hw => hw.1 ▸ hu
  refine .ite (fun _ => ?_) fun _ => hdemand ⟨rfl, rfl⟩
  exact (ends_countOps 1).bind fun _ u hu => hdemand hu

theorem ends_demandStackSize (h : m.Carries kind) :
    Ends faults (fun _ u => u.Bounded kind maxStackSize) (demandStackSize m) := by
  refine .get_bind ((ends_demand _ _).mono ?_)
  rintro _ u ⟨rfl, hcount⟩
  exact ⟨h, of_decide_eq_true hcount⟩

/-- After an operation there are no more items than there may be, however many there were. -/
theorem ends_operation (hc : env.checker.Answers faults) (hk : Closed kind limit)
    (h : m.Carries kind) (hlength : m.stack.length ≤ limit) (rest : Bytes) (op : Op) :
    Ends faults (fun _ u => u.Bounded kind maxStackSize) (operation env rest op m) := by
  cases op with
  | invalid opcode => exact .verdict
  | push opcode data =>
      refine (ends_demand _ _).bind ?_
      rintro _ m ⟨rfl, hdata⟩
      refine (ends_screen opcode).bind fun _ u hu => .get_bind ?_
      have hm : u.Carries kind := h.congr hu
      refine .ite (fun _ => ?_) fun _ => ends_demandStackSize hm
      refine (ends_demand_holds hm.holds _ _).bind fun _ m hm => ?_
      have hshort : data.length ≤ maxElementSize := of_decide_eq_true hdata
      refine (ends_push hm (hk.short _ hshort)).bind fun _ m hm => ?_
      exact ends_demandStackSize hm.toCarries
  | code opcode =>
      refine (ends_screen opcode).bind fun _ u hu => .get_bind ?_
      refine .ite (fun _ => ?_) fun _ => ends_demandStackSize (h.congr hu)
      exact (ends_execute hc hk (h.congr hu) (hu.1 ▸ hlength) rest rfl).bind fun _ m hm =>
        ends_demandStackSize hm

/-- Between the operations of a script the stacks stay within the limit, or within a wider one
that they were within at the start. -/
theorem ends_operations_of_closed (hc : env.checker.Answers faults) (hk : Closed kind limit)
    (h : m.Bounded kind limit) (hlimit : maxStackSize ≤ limit) (fuel : Nat) (bs : Bytes) :
    Ends faults (fun _ u => u.Bounded kind limit) (operations env fuel bs m) := by
  induction fuel generalizing bs m with
  | zero => exact .pure h
  | succ fuel ih =>
      rw [operations]
      cases Op.decode bs with
      | none => exact .pure h
      | some next =>
          have hlength : m.stack.length ≤ limit := (Nat.le_add_right _ _).trans h.count
          exact (ends_operation hc hk h.toCarries hlength _ _).bind fun _ m hm =>
            ih ⟨hm.toCarries, hm.count.trans hlimit⟩ _

theorem ends_operations (hc : env.checker.Answers faults) (h : m.Within limit)
    (hlimit : maxStackSize ≤ limit) (hfits : limit < 2 ^ 63) (fuel : Nat) (bs : Bytes) :
    Ends faults (fun _ u => u.Within limit) (operations env fuel bs m) :=
  ends_operations_of_closed hc (closed_isShort hfits) h hlimit fuel bs

theorem ends_script (hc : env.checker.Answers faults) (hk : Closed kind limit)
    (h : m.Bounded kind limit) (hlimit : maxStackSize ≤ limit) (s : Script) :
    Ends faults (fun _ u => u.Bounded kind limit) (script env s m) := by
  refine (ends_demand _ _).bind ?_
  rintro _ m ⟨rfl, -⟩
  refine (ends_operations_of_closed hc hk h hlimit _ _).bind fun _ m hm => .get_bind ?_
  exact (ends_demand _ _).mono fun _ u hu => hu.1 ▸ hm

end Step

/-- What is known of a stack is known of the machine that starts on it. -/
theorem Machine.bounded_start {kind : Bytes → Prop} {stack : List Bytes} {limit : Nat}
    (hcount : stack.length ≤ limit) (hkind : ∀ item ∈ stack, kind item) (s : Script)
    (trace : List Event) : (start stack s trace).Bounded kind limit :=
  ⟨⟨hkind, nofun⟩, hcount⟩

/-- What a stack without too large items gives the machine that starts on it. -/
theorem Machine.within_start {stack : List Bytes} {limit : Nat} (hcount : stack.length ≤ limit)
    (hsize : ∀ item ∈ stack, item.length ≤ maxElementSize) (s : Script) (trace : List Event) :
    (start stack s trace).Within limit :=
  bounded_start hcount hsize s trace

/-- A script runs without a fault, unless the checker gives one, and leaves a stack within the
limit that its stack was within. -/
theorem ends_run {env : Env} {faults : Fault → Prop} {limit : Nat} {stack : List Bytes}
    (hc : env.checker.Answers faults) (hcount : stack.length ≤ limit)
    (hsize : ∀ item ∈ stack, item.length ≤ maxElementSize) (hlimit : maxStackSize ≤ limit)
    (hfits : limit < 2 ^ 63) (s : Script) (trace : List Event) :
    Ends faults (fun _ u => u.Within limit) (run env s stack trace) :=
  Step.ends_script hc (closed_isShort hfits) (Machine.within_start hcount hsize s trace) hlimit s

/-- A script that starts on a stack within the limits leaves one within them, and within them are
both stacks after each of its operations, those that were carried out one after another from the
start. -/
theorem stacks_within_limits (env : Env) (s : Script) (stack : List Bytes) (trace : List Event)
    (hcount : stack.length ≤ 1000) (hsize : ∀ item ∈ stack, item.length ≤ 520) :
    (∀ m, run env s stack trace = .ok () m →
      m.stack.length ≤ 1000 ∧ ∀ item ∈ m.stack, item.length ≤ 520) ∧
    (∀ k m, Step.operations env k s.bytes (Machine.start stack s trace) = .ok () m →
      m.stack.length + m.alt.length ≤ 1000 ∧
        (∀ item ∈ m.stack, item.length ≤ 520) ∧ ∀ item ∈ m.alt, item.length ≤ 520) := by
  have hc := Checker.answers_true env.checker
  have hfits : maxStackSize < 2 ^ 63 := by decide
  constructor
  · intro m hm
    have hwithin : m.Within maxStackSize :=
      (ends_run hc hcount hsize (Nat.le_refl _) hfits s trace).of_ok hm
    exact ⟨(Nat.le_add_right _ _).trans hwithin.count, hwithin.stack⟩
  · intro k m hm
    have hstart : (Machine.start stack s trace).Within maxStackSize :=
      Machine.within_start hcount hsize s trace
    have hwithin : m.Within maxStackSize :=
      (Step.ends_operations hc hstart (Nat.le_refl _) hfits k s.bytes).of_ok hm
    exact ⟨hwithin.count, hwithin.stack, hwithin.alt⟩

/-- An item is copied, the copy goes to the other stack, and one is added to the item. -/
theorem stacks_within_limits_copied :
    let env : Env := ⟨Flags.none, .legacy, Checker.null⟩
    let s : Script := ⟨[Opcode.dup, Opcode.toAltStack, Opcode.add1]⟩
    (∃ m, run env s [[7]] [] = .ok () m ∧
      m.stack.length ≤ 1000 ∧ ∀ item ∈ m.stack, item.length ≤ 520) ∧
    ∃ m, Step.operations env 2 s.bytes (Machine.start [[7]] s []) = .ok () m ∧
      m.stack.length + m.alt.length ≤ 1000 ∧
        (∀ item ∈ m.stack, item.length ≤ 520) ∧ ∀ item ∈ m.alt, item.length ≤ 520 := by
  intro env s
  have hlimits := stacks_within_limits env s [[7]] [] (by decide) (by decide)
  constructor
  · obtain ⟨_, m, hm⟩ : ∃ a m, run env s [[7]] [] = .ok a m :=
      exists_ok_of_result? (by decide +kernel)
    exact ⟨m, hm, hlimits.1 m hm⟩
  · obtain ⟨_, m, hm⟩ : ∃ a m, Step.operations env 2 s.bytes (Machine.start [[7]] s []) = .ok a m :=
      exists_ok_of_result? (by decide +kernel)
    exact ⟨m, hm, hlimits.2 2 m hm⟩

end Eval

end StakeChain
