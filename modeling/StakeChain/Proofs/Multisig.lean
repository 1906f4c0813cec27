/-
A multisig check looks for keys in the order of the signatures.

The check walks down the keys once and never goes back: a key that accepts the
next signature is spent on it. Nothing is lost by that. Where the signatures can be
assigned to keys at all, the rest of them can be assigned to the keys behind the
first one that accepts the first signature, so the greedy walk fails only where
every walk would. It may also stop before the keys are at an end, when fewer
of them are left than signatures: no assignment has room there.

The stack is read by position, from the top. The positions are those of the lists
that the check finds there, so what is said about the walk is said about lists.
-/
import Mathlib.Data.List.NodupEquivFin
import Mathlib.Data.List.Forall2
import StakeChain.Proofs.Untouched

namespace StakeChain

/-! ## Assignments in order -/

section

variable {α β : Type} {R : α → β → Prop} {x : α} {y : β} {xs : List α} {ys : List β}

theorem sublistForall₂_length_le (h : List.SublistForall₂ R xs ys) : xs.length ≤ ys.length := by
  obtain ⟨zs, hzs, hsub⟩ := List.sublistForall₂_iff.mp h
  exact hzs.length_eq ▸ hsub.length_le

theorem sublistForall₂_of_cons (h : List.SublistForall₂ R (x :: xs) ys) :
    List.SublistForall₂ R xs ys := by
  generalize hall : x :: xs = all at h
  induction h with
  | nil => cases hall
  | cons hr hrest ih =>
      cases hall
      exact .cons_right hrest
  | cons_right hrest ih => exact .cons_right (ih hall)

/-- The first place that will do may be taken. -/
theorem sublistForall₂_cons_of_rel (h : R x y) :
    List.SublistForall₂ R (x :: xs) (y :: ys) ↔ List.SublistForall₂ R xs ys := by
  constructor
  · intro hall
    cases hall with
    | cons _ hrest => exact hrest
    | cons_right hlater => exact sublistForall₂_of_cons hlater
  · exact .cons h

/-- A place that will not do is passed over. -/
theorem sublistForall₂_cons_of_not_rel (h : ¬ R x y) :
    List.SublistForall₂ R (x :: xs) (y :: ys) ↔ List.SublistForall₂ R (x :: xs) ys := by
  constructor
  · intro hall
    cases hall with
    | cons hr _ => exact absurd hr h
    | cons_right hlater => exact hlater
  · exact .cons_right

/-- An assignment in order gives each member of one list its place in the other, later members
later places. -/
theorem sublistForall₂_iff_strictMono :
    List.SublistForall₂ R xs ys ↔ ∃ place : Fin xs.length → Fin ys.length,
      StrictMono place ∧ ∀ i, R (xs.get i) (ys.get (place i)) := by
  rw [List.sublistForall₂_iff]
  constructor
  · rintro ⟨zs, hzs, hsub⟩
    obtain ⟨hlength, hrel⟩ := List.forall₂_iff_get.mp hzs
    obtain ⟨f, hf⟩ := List.sublist_iff_exists_fin_orderEmbedding_get_eq.mp hsub
    refine ⟨fun i => f (i.cast hlength), fun i j hij => f.strictMono hij, fun i => ?_⟩
    rw [← hf]
    exact hrel i i.isLt (hlength ▸ i.isLt)
  · rintro ⟨place, hmono, hrel⟩
    refine ⟨List.ofFn fun i => ys.get (place i), ?_, ?_⟩
    · refine List.forall₂_iff_get.mpr ⟨List.length_ofFn.symm, fun i hi hi' => ?_⟩
      rw [List.get_ofFn]
      exact hrel ⟨i, hi⟩
    · refine List.sublist_iff_exists_fin_orderEmbedding_get_eq.mpr
        ⟨.ofStrictMono (fun i => place (i.cast List.length_ofFn)) fun i j hij => hmono hij, ?_⟩
      intro i
      rw [List.get_ofFn]
      rfl

end

namespace Eval

open Stateful

/-! ## The arguments of a multisig check -/

/-- The items that a multisig check works on, from the top. -/
structure MultisigCall where
  keyCount : Bytes
  keys : List Bytes
  sigCount : Bytes
  sigs : List Bytes
  /-- Taken off although nothing needs it. -/
  extra : Bytes
  under : List Bytes

namespace MultisigCall

def stack (c : MultisigCall) : List Bytes :=
  c.keyCount :: (c.keys ++ c.sigCount :: (c.sigs ++ c.extra :: c.under))

/-- The counts are those of the keys and the signatures, and within their limits. -/
structure Counts (c : MultisigCall) (flags : Flags) : Prop where
  keys : ScriptNumber.decode c.keyCount flags.minimalData numberWidth = some (c.keys.length : Int)
  sigs : ScriptNumber.decode c.sigCount flags.minimalData numberWidth = some (c.sigs.length : Int)
  sigs_le : c.sigs.length ≤ c.keys.length
  keys_le : c.keys.length ≤ 20

theorem getElem?_keyCount (c : MultisigCall) : c.stack[0]? = some c.keyCount := rfl

theorem drop_keys (c : MultisigCall) :
    c.stack.drop 1 = c.keys ++ c.sigCount :: (c.sigs ++ c.extra :: c.under) := rfl

theorem getElem?_sigCount (c : MultisigCall) :
    c.stack[c.keys.length + 1]? = some c.sigCount := by
  rw [stack, List.getElem?_cons_succ, List.getElem?_append_right (Nat.le_refl _), Nat.sub_self,
    List.getElem?_cons_zero]

theorem drop_sigs (c : MultisigCall) :
    c.stack.drop (c.keys.length + 2) = c.sigs ++ c.extra :: c.under := by
  rw [stack, List.drop_succ_cons, List.drop_length_add_append, List.drop_succ_cons, List.drop_zero]

end MultisigCall

/-- A stack that is long enough for so many keys and signatures. -/
theorem exists_multisigCall {stack : List Bytes} {keys sigs : Nat}
    (h : keys + sigs + 3 ≤ stack.length) :
    ∃ c : MultisigCall, stack = c.stack ∧ c.keys.length = keys ∧ c.sigs.length = sigs := by
  obtain ⟨keyCount, below, rfl⟩ := List.exists_cons_of_length_pos (show 0 < stack.length by omega)
  rw [List.length_cons] at h
  obtain ⟨sigCount, below', hsigCount⟩ :=
    List.exists_cons_of_length_pos (l := below.drop keys) (by rw [List.length_drop]; omega)
  have hbelow : (below.drop keys).length = below'.length + 1 := by
    rw [hsigCount, List.length_cons]
  rw [List.length_drop] at hbelow
  obtain ⟨extra, under, hextra⟩ :=
    List.exists_cons_of_length_pos (l := below'.drop sigs) (by rw [List.length_drop]; omega)
  refine ⟨⟨keyCount, below.take keys, sigCount, below'.take sigs, extra, under⟩, ?_, ?_, ?_⟩
  · rw [MultisigCall.stack, ← hextra, List.take_append_drop, ← hsigCount, List.take_append_drop]
  · rw [List.length_take]
    omega
  · rw [List.length_take]
    omega

namespace Step

variable {env : Env} {m u : Machine} {a : Unit}

/-! ## Items by position -/

/-- The list from one position on gives the item there, and the list from the next one on. -/
theorem getElem?_of_drop {items rest : List Bytes} {place : Nat} {item : Bytes}
    (h : items.drop place = item :: rest) :
    items[place]? = some item ∧ items.drop (place + 1) = rest := by
  constructor
  · rw [← List.head?_drop, h, List.head?_cons]
  · rw [← List.tail_drop, h, List.tail_cons]

theorem items_ok {place : Nat} {found sigs rest : List Bytes}
    (hsigs : m.stack.drop place = sigs ++ rest)
    (h : items (place + 1) sigs.length m = .ok found u) : found = sigs := by
  induction sigs generalizing place found with
  | nil => exact (pure_eq_ok.mp h).1
  | cons sig sigs ih =>
      obtain ⟨hsig, hrest⟩ := getElem?_of_drop hsigs
      obtain ⟨item, htop, h⟩ := (looks_top _).bind_ok h
      obtain ⟨below, w, hbelow, hpair⟩ := bind_eq_ok.mp h
      obtain ⟨rfl, rfl⟩ := pure_eq_ok.mp hpair
      rw [(top_eq_ok.mp htop).1] at hsig
      rw [Option.some.inj hsig, ih hrest hbelow]

/-! ## The walk -/

/-- The walk down the keys finds an assignment if there is one. -/
theorem matchSigs_ok {code : Script} {sigs keys keysRest sigsRest : List Bytes}
    {keyPlace sigPlace : Nat} {valid : Bool} (hkeys : m.stack.drop keyPlace = keys ++ keysRest)
    (hsigs : m.stack.drop sigPlace = sigs ++ sigsRest) (hle : sigs.length ≤ keys.length)
    (h : matchSigs env code keys.length (keyPlace + 1) (sigPlace + 1) sigs.length m =
      .ok valid u) :
    u.stack = m.stack ∧ (valid ↔ List.SublistForall₂
      (fun sig key => env.checker.signature sig key code env.version = .ok true) sigs keys) := by
  induction keys generalizing sigs keyPlace sigPlace m with
  | nil =>
      obtain rfl := List.eq_nil_of_length_eq_zero (Nat.le_zero.mp hle)
      obtain ⟨rfl, rfl⟩ := pure_eq_ok.mp h
      exact ⟨rfl, iff_of_true rfl .nil⟩
  | cons key keys ih =>
      cases sigs with
      | nil =>
          obtain ⟨rfl, rfl⟩ := pure_eq_ok.mp h
          exact ⟨rfl, iff_of_true rfl .nil⟩
      | cons sig sigs =>
          obtain ⟨hkey, hkeys'⟩ := getElem?_of_drop hkeys
          obtain ⟨hsig, hsigs'⟩ := getElem?_of_drop hsigs
          obtain ⟨_, hsigTop, hread⟩ := (looks_top _).bind_ok h
          cases (top_eq_ok.mp hsigTop).1.symm.trans hsig
          obtain ⟨_, hkeyTop, hread⟩ := (looks_top _).bind_ok hread
          cases (top_eq_ok.mp hkeyTop).1.symm.trans hkey
          obtain ⟨_, -, hread⟩ := (looks_demandSignatureEncoding env sig).bind_ok hread
          obtain ⟨_, -, hread⟩ := (looks_demandKeyEncoding env key).bind_ok hread
          obtain ⟨accepted, w, hask, hgoes⟩ := bind_eq_ok.mp hread
          obtain ⟨hanswer, hw⟩ := askSignature_eq_ok.mp hask
          have hsame : w.stack = m.stack := hw ▸ rfl
          rw [← hsame] at hkeys' hsigs hsigs' ⊢
          -- the positions move on as the lists do: past this key, and past the signature if the
          -- key accepts it
          cases accepted with
          | true =>
              have hle' : sigs.length ≤ keys.length := Nat.le_of_succ_le_succ hle
              rw [if_pos rfl, if_pos rfl, if_neg (Nat.not_lt.mpr hle')] at hgoes
              rw [sublistForall₂_cons_of_rel (by exact hanswer)]
              exact ih hkeys' hsigs' hle' hgoes
          | false =>
              rw [if_neg Bool.false_ne_true, if_neg Bool.false_ne_true] at hgoes
              rw [sublistForall₂_cons_of_not_rel (by simp [hanswer])]
              split at hgoes
              · next hfew =>
                  -- the early end: more signatures are left than keys
                  obtain ⟨rfl, rfl⟩ := pure_eq_ok.mp hgoes
                  refine ⟨rfl, iff_of_false Bool.false_ne_true fun hall => ?_⟩
                  exact absurd (sublistForall₂_length_le hall) (Nat.not_le.mpr hfew)
              · next hroom => exact ih hkeys' hsigs (Nat.not_lt.mp hroom) hgoes

theorem dropArguments_ok {valid : Bool} {count beforeSigs : Nat}
    (h : dropArguments env valid count beforeSigs m = .ok a u) :
    u = { m with stack := m.stack.drop count } := by
  induction count generalizing beforeSigs m with
  | zero =>
      obtain ⟨-, rfl⟩ := pure_eq_ok.mp h
      rfl
  | succ count ih =>
      have hdrops : ∃ w, discard m = .ok () w ∧
          dropArguments env valid count (beforeSigs - 1) w = .ok a u := by
        rw [dropArguments] at h
        dsimp only at h
        split at h
        · obtain ⟨_, -, h⟩ := (looks_top 1).bind_ok h
          obtain ⟨_, -, h⟩ := (looks_demand _ _).bind_ok h
          obtain ⟨_, w, hdiscard, hrest⟩ := bind_eq_ok.mp h
          exact ⟨w, hdiscard, hrest⟩
        · obtain ⟨_, w, hdiscard, hrest⟩ := bind_eq_ok.mp h
          exact ⟨w, hdiscard, hrest⟩
      obtain ⟨w, hdiscard, hrest⟩ := hdrops
      obtain rfl := modify_eq_ok.mp hdiscard
      rw [ih hrest, List.drop_drop, Nat.add_comm]

/-- What is taken off at the end, and the result that is left. -/
theorem multisig_end_ok {valid : Bool} {size beforeSigs : Nat}
    (h : (do
      dropArguments env valid size beforeSigs
      require 1
      let extra ← top 1
      demand (!env.flags.nullDummy || extra.isEmpty) .sigNullDummy
      discard
      pushBool valid) m = .ok a u) :
    u.stack = ScriptNumber.ofBool valid :: m.stack.drop (size + 1) := by
  obtain ⟨_, _, hdrop, h⟩ := bind_eq_ok.mp h
  obtain rfl := dropArguments_ok hdrop
  obtain ⟨_, -, h⟩ := (looks_require 1).bind_ok h
  obtain ⟨_, -, h⟩ := (looks_top 1).bind_ok h
  obtain ⟨_, -, h⟩ := (looks_demand _ _).bind_ok h
  obtain ⟨_, _, hdiscard, hpush⟩ := bind_eq_ok.mp h
  obtain rfl := modify_eq_ok.mp hdiscard
  obtain rfl := modify_eq_ok.mp hpush
  dsimp only
  rw [List.drop_drop]

/-- What a multisig check does once it knows how many keys there are. -/
theorem matchKeys_ok {keys : Nat} (h : matchKeys env false keys m = .ok a u) :
    ∃ (c : MultisigCall) (valid : Bool), m.stack = c.stack ∧ c.keys.length = keys ∧
      c.sigs.length ≤ keys ∧
      ScriptNumber.decode c.sigCount env.flags.minimalData numberWidth =
        some (c.sigs.length : Int) ∧
      u.stack = ScriptNumber.ofBool valid :: m.stack.drop (keys + c.sigs.length + 3) ∧
      (valid ↔ List.SublistForall₂ (fun sig key =>
        env.checker.signature sig key (signedCode env.version m.code c.sigs) env.version =
          .ok true) c.sigs c.keys) := by
  obtain ⟨_, -, h⟩ := (looks_require _).bind_ok h
  obtain ⟨sigs, hsigCount, h⟩ := (looks_count ..).bind_ok h
  obtain ⟨hle, item, hitem, hdecode⟩ := count_ok hsigCount
  obtain ⟨_, hlength, h⟩ := (looks_require _).bind_ok h
  obtain ⟨c, hstack, rfl, rfl⟩ := exists_multisigCall (require_eq_ok.mp hlength).1
  rw [hstack, c.getElem?_sigCount] at hitem
  obtain rfl := Option.some.inj hitem
  have hkeys : m.stack.drop 1 = c.keys ++ c.sigCount :: (c.sigs ++ c.extra :: c.under) :=
    hstack ▸ c.drop_keys
  have hsigs : m.stack.drop (c.keys.length + 2) = c.sigs ++ c.extra :: c.under :=
    hstack ▸ c.drop_sigs
  obtain ⟨found, hfound, h⟩ := (looks_items _ _).bind_ok h
  obtain rfl := items_ok hsigs hfound
  rw [bind_of_ok (scriptCode_eq _)] at h
  obtain ⟨valid, w, hmatch, hends⟩ := bind_eq_ok.mp h
  obtain ⟨hsame, hvalid⟩ := matchSigs_ok hkeys hsigs hle hmatch
  exact ⟨c, valid, hstack, rfl, hle, hdecode, hsame ▸ multisig_end_ok hends, hvalid⟩

end Step

variable {env : Env} {rest : Bytes} {m u : Machine} {a : Unit}

/-- A multisig check that goes through finds the keys and the signatures under their counts, takes
them off with the counts and one item more, and leaves whether the signatures can be assigned to
keys in order, each to one that accepts it for the script that is signed. -/
theorem checkMultisig_decides
    (h : Step.execute env rest (Instruction.ofOpcode Opcode.checkMultisig) m = .ok a u) :
    ∃ (c : MultisigCall) (valid : Bool), m.stack = c.stack ∧ c.Counts env.flags ∧
      u.stack = ScriptNumber.ofBool valid :: m.stack.drop (c.keys.length + c.sigs.length + 3) ∧
      (valid ↔ ∃ place : Fin c.sigs.length → Fin c.keys.length, StrictMono place ∧
        ∀ i, env.checker.signature (c.sigs.get i) (c.keys.get (place i))
          (Step.signedCode env.version m.code c.sigs) env.version = .ok true) := by
  have hcheck : Step.checkMultisig env false m = .ok a u := h
  rw [Step.checkMultisig_eq] at hcheck
  obtain ⟨_, -, hcheck⟩ := (Step.looks_require 1).bind_ok hcheck
  obtain ⟨keys, hkeyCount, hcheck⟩ := (Step.looks_count ..).bind_ok hcheck
  obtain ⟨hlimit, item, hitem, hdecode⟩ := Step.count_ok hkeyCount
  obtain ⟨_, _, hcounted, hmatch⟩ := bind_eq_ok.mp hcheck
  obtain ⟨-, rfl⟩ := Step.countOps_eq_ok.mp hcounted
  obtain ⟨c, valid, hstack, rfl, hle, hsigDecode, hresult, hvalid⟩ := Step.matchKeys_ok hmatch
  dsimp only at hstack
  rw [hstack, c.getElem?_keyCount] at hitem
  obtain rfl := Option.some.inj hitem
  exact ⟨c, valid, hstack, ⟨hdecode, hsigDecode, hle, hlimit⟩, hresult,
    hvalid.trans sublistForall₂_iff_strictMono⟩

/-- A checker that accepts each signature for the key of the same bytes. -/
def acceptingSame : Checker :=
  { Checker.null with signature := fun sig key _ _ => .ok (sig == key) }

/-- Two signatures and three keys; the key in the middle is passed over. -/
theorem checkMultisig_decides_two_of_three :
    let env : Env := ⟨Flags.none, .legacy, acceptingSame⟩
    let m : Machine := Machine.start [[3], [13], [12], [11], [2], [13], [11], [], [7]] ⟨[]⟩ []
    ∃ u, Step.execute env [] (Instruction.ofOpcode Opcode.checkMultisig) m = .ok () u ∧
      ∃ (c : MultisigCall) (valid : Bool), m.stack = c.stack ∧ c.Counts env.flags ∧
        u.stack = ScriptNumber.ofBool valid :: m.stack.drop (c.keys.length + c.sigs.length + 3) ∧
        (valid ↔ ∃ place : Fin c.sigs.length → Fin c.keys.length, StrictMono place ∧
          ∀ i, env.checker.signature (c.sigs.get i) (c.keys.get (place i))
            (Step.signedCode env.version m.code c.sigs) env.version = .ok true) := by
  intro env m
  obtain ⟨_, u, hu⟩ : ∃ a u,
      Step.execute env [] (Instruction.ofOpcode Opcode.checkMultisig) m = .ok a u :=
    exists_ok_of_result? (by decide +kernel)
  exact ⟨u, hu, checkMultisig_decides hu⟩

end Eval

end StakeChain
