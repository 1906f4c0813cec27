/-
Readers that read exactly what a writer writes.

A reader is `Exact` for a writer and a domain of values if it gives a value
just when the value lies in the domain and the stream starts with what is
written for it; then it takes those bytes and no more. One equivalence
therefore says both that what was written is read back, whatever follows it,
and that nothing else is read. It is kept by every way in which readers are
put together, so it is shown once for each part of the wire format.
-/
import StakeChain.Codec.VarInt
import StakeChain.Proofs.Numerals
import StakeChain.Proofs.Stateful

namespace StakeChain.Codec

open Stateful

/-! ## Streams -/

/-- The stream `t` is what is left of `s` after these bytes. -/
structure Stream.Passes (s : Stream) (bs : Bytes) (t : Stream) : Prop where
  rest : s.rest = bs ++ t.rest
  format : t.format = s.format
  consumed : t.consumed = s.consumed + bs.length

namespace Stream

variable {s t u : Stream}

theorem passes_nil : s.Passes [] t ↔ t = s := by
  constructor
  · rintro ⟨hr, hf, hc⟩
    cases s
    cases t
    cases hr
    cases hf
    cases hc
    rfl
  · rintro rfl
    exact ⟨rfl, rfl, rfl⟩

theorem passes_append {a b : Bytes} :
    s.Passes (a ++ b) t ↔ ∃ u, s.Passes a u ∧ u.Passes b t := by
  constructor
  · rintro ⟨hr, hf, hc⟩
    refine ⟨⟨s.format, s.consumed + a.length, b ++ t.rest⟩, ⟨?_, rfl, rfl⟩, rfl, hf, ?_⟩
    · rw [hr, List.append_assoc]
    · rw [hc, List.length_append, Nat.add_assoc]
  · rintro ⟨u, ⟨hr, hf, hc⟩, ⟨hr', hf', hc'⟩⟩
    refine ⟨?_, hf'.trans hf, ?_⟩
    · rw [hr, hr', List.append_assoc]
    · rw [hc', hc, List.length_append, Nat.add_assoc]

/-- A stream that starts with some bytes passes them. -/
theorem passes_of_append (f : Format) (consumed : Nat) (bs rest : Bytes) :
    Passes ⟨f, consumed, bs ++ rest⟩ bs ⟨f, consumed + bs.length, rest⟩ :=
  ⟨rfl, rfl, rfl⟩

end Stream

/-! ## Exact readers -/

/-- The reader gives the values that fit, each where the stream starts with what is written for
it, and takes just that off the stream. -/
structure Read.Exact {α : Type} (r : Read α) (fits : Format → α → Prop)
    (write : Format → α → Bytes) : Prop where
  read_eq_ok : ∀ {s a t}, r s = .ok a t ↔ fits s.format a ∧ s.Passes (write s.format a) t

namespace Read.Exact

variable {α β : Type} {r : Read α} {f : α → Read β} {fits fits' : Format → α → Prop}
  {write write' : Format → α → Bytes}

/-- The same reader, with its domain and its writer in other words. -/
theorem congr (h : r.Exact fits write) (hfits : ∀ g a, fits' g a ↔ fits g a)
    (hwrite : ∀ g a, fits g a → write' g a = write g a) : r.Exact fits' write' where
  read_eq_ok := by
    intro s a t
    rw [h.read_eq_ok, hfits]
    refine and_congr_right fun ha => ?_
    rw [hwrite _ _ ha]

theorem pure (a : α) : (Pure.pure a : Read α).Exact (fun _ b => b = a) (fun _ _ => []) where
  read_eq_ok := by
    intro s b t
    rw [pure_eq_ok, Stream.passes_nil]

/-- A reader that never gives a value is exact where no value fits. -/
theorem never (h : ∀ s a t, r s ≠ .ok a t) (hfits : ∀ g a, ¬ fits g a) :
    r.Exact fits write where
  read_eq_ok := fun {s a t} =>
    ⟨fun hr => absurd hr (h s a t), fun ⟨hf, _⟩ => absurd hf (hfits _ a)⟩

/-- Two readers one after the other. The value of the first has to be found again in the value
of both, which is what `part` does. -/
theorem bind {fits₂ : α → Format → β → Prop} {write₂ : α → Format → β → Bytes} (part : β → α)
    (hr : r.Exact fits write) (hf : ∀ a, (f a).Exact (fits₂ a) (write₂ a))
    (hpart : ∀ {a g b}, fits g a → fits₂ a g b → part b = a) :
    (r >>= f).Exact (fun g b => fits g (part b) ∧ fits₂ (part b) g b)
      (fun g b => write g (part b) ++ write₂ (part b) g b) where
  read_eq_ok := by
    intro s b t
    rw [bind_eq_ok, Stream.passes_append]
    constructor
    · rintro ⟨a, u, ha, hb⟩
      obtain ⟨ha, hs⟩ := hr.read_eq_ok.mp ha
      obtain ⟨hb, hu⟩ := (hf a).read_eq_ok.mp hb
      rw [hs.format] at hb hu
      obtain rfl := hpart ha hb
      exact ⟨⟨ha, hb⟩, u, hs, hu⟩
    · rintro ⟨⟨ha, hb⟩, u, hs, hu⟩
      refine ⟨part b, u, hr.read_eq_ok.mpr ⟨ha, hs⟩, (hf _).read_eq_ok.mpr ?_⟩
      rw [hs.format]
      exact ⟨hb, hu⟩

/-- A reader whose values are turned into others and back. -/
theorem map {k : α → β} {fits₂ : Format → β → Prop} (back : β → α) (hr : r.Exact fits write)
    (hk : ∀ {g a}, fits g a → fits₂ g (k a) ∧ back (k a) = a)
    (hback : ∀ {g b}, fits₂ g b → fits g (back b) ∧ k (back b) = b) :
    (k <$> r).Exact fits₂ (fun g b => write g (back b)) where
  read_eq_ok := by
    intro s b t
    rw [map_eq_ok]
    constructor
    · rintro ⟨a, ha, rfl⟩
      obtain ⟨hfits, hs⟩ := hr.read_eq_ok.mp ha
      obtain ⟨hfits₂, hka⟩ := hk hfits
      rw [hka]
      exact ⟨hfits₂, hs⟩
    · rintro ⟨hb, hs⟩
      obtain ⟨hfits, hkb⟩ := hback hb
      exact ⟨back b, hr.read_eq_ok.mpr ⟨hfits, hs⟩, hkb.symm⟩

/-- A reader that refuses some of the values it has read. -/
theorem refuse {p : α → Prop} [DecidablePred p] {e : α → Error} (h : r.Exact fits write) :
    (r >>= fun a => if p a then throw (e a) else Pure.pure a).Exact
      (fun g a => fits g a ∧ ¬ p a) write where
  read_eq_ok := by
    intro s a t
    rw [bind_eq_ok]
    constructor
    · rintro ⟨b, u, hb, ha⟩
      split at ha
      · exact absurd ha throw_ne_ok
      · rename_i hp
        obtain ⟨rfl, rfl⟩ := pure_eq_ok.mp ha
        obtain ⟨hfits, hs⟩ := h.read_eq_ok.mp hb
        exact ⟨⟨hfits, hp⟩, hs⟩
    · rintro ⟨⟨hfits, hp⟩, hs⟩
      refine ⟨a, t, h.read_eq_ok.mpr ⟨hfits, hs⟩, ?_⟩
      rw [if_neg hp]
      exact pure_eq_ok.mpr ⟨rfl, rfl⟩

/-- A reader that goes on as the context says. -/
theorem context {k : Context → Read α} {fits : Context → Format → α → Prop}
    {write : Context → Format → α → Bytes} (h : ∀ c, (k c).Exact (fits c) (write c)) :
    (Read.context >>= k).Exact (fun g a => fits g.context g a)
      (fun g a => write g.context g a) where
  read_eq_ok := fun {s _ _} => (h s.format.context).read_eq_ok

/-- What was written is read back, whatever follows it. -/
theorem read_of_append (h : r.Exact fits write) {g : Format} {a : α} (ha : fits g a)
    (consumed : Nat) (rest : Bytes) :
    r ⟨g, consumed, write g a ++ rest⟩ = .ok a ⟨g, consumed + (write g a).length, rest⟩ :=
  h.read_eq_ok.mpr ⟨ha, Stream.passes_of_append ..⟩

/-! ## Bytes and numbers -/

theorem bytes (n : Nat) :
    (Read.bytes n).Exact (fun _ bs => bs.length = n) (fun _ bs => bs) where
  read_eq_ok := by
    rintro ⟨format, consumed, rest⟩ bs ⟨format', consumed', rest'⟩
    rw [Read.bytes]
    cases h : Bytes.splitExact n rest with
    | none =>
        refine ⟨nofun, fun ⟨hn, hs⟩ => ?_⟩
        rw [Bytes.splitExact_eq_some.mpr ⟨hn, hs.rest⟩] at h
        cases h
    | some p =>
        obtain ⟨head, tail⟩ := p
        obtain ⟨hn, hrest⟩ := Bytes.splitExact_eq_some.mp h
        constructor
        · intro h
          cases h
          exact ⟨hn, hrest, rfl, by rw [hn]⟩
        · rintro ⟨hbs, hr, hf, hc⟩
          obtain ⟨rfl, rfl⟩ := List.append_inj (hrest.symm.trans hr) (hn.trans hbs.symm)
          cases hf
          obtain rfl : consumed' = consumed + head.length := hc
          rw [hn]

theorem byte : Read.byte.Exact (fun _ _ => True) (fun _ b => [b]) where
  read_eq_ok := by
    rintro ⟨format, consumed, rest⟩ b ⟨format', consumed', rest'⟩
    cases rest with
    | nil => exact ⟨nofun, fun ⟨_, hs⟩ => nomatch hs.rest⟩
    | cons c rest =>
        constructor
        · intro h
          cases h
          exact ⟨trivial, rfl, rfl, rfl⟩
        · rintro ⟨-, hr, hf, hc⟩
          cases hr
          cases hf
          obtain rfl : consumed' = consumed + 1 := hc
          rfl

theorem digest (size : Nat) :
    (Read.digest size).Exact (fun _ _ => True) (fun _ d => d.bytes) where
  read_eq_ok := by
    intro s d t
    have h := (bytes size).read_eq_ok (s := s) (a := d.bytes) (t := t)
    rw [and_iff_right d.length_bytes] at h
    rw [and_iff_right trivial, ← h, Read.digest, Read.bytes]
    cases hsplit : Bytes.splitExact size s.rest with
    | none => exact ⟨nofun, nofun⟩
    | some p =>
        obtain ⟨head, rest⟩ := p
        have hlen := (Bytes.splitExact_eq_some.mp hsplit).1
        dsimp only
        rw [dif_pos hlen]
        constructor
        · intro h
          cases h
          rfl
        · intro h
          cases h
          rfl

/-- A number in the byte order of the stream. -/
theorem nat (width : Nat) :
    (Read.nat width).Exact (fun _ n => n < 256 ^ width)
      (fun g n => Bytes.ofNat g.order width n) where
  read_eq_ok := by
    intro s n t
    rw [Read.nat, bind_eq_ok]
    constructor
    · rintro ⟨bs, u, hb, h⟩
      obtain ⟨_, _, hget, hpure⟩ := bind_eq_ok.mp h
      obtain ⟨rfl, rfl⟩ := get_eq_ok.mp hget
      obtain ⟨rfl, rfl⟩ := pure_eq_ok.mp hpure
      obtain ⟨hlen, hs⟩ := (bytes width).read_eq_ok.mp hb
      rw [hs.format, Bytes.ofNat_toNat hlen]
      refine ⟨?_, hs⟩
      rw [← hlen]
      exact Bytes.toNat_lt _ _
    · rintro ⟨hn, hs⟩
      refine ⟨_, t, (bytes width).read_eq_ok.mpr ⟨Bytes.length_ofNat .., hs⟩, ?_⟩
      refine bind_eq_ok.mpr ⟨t, t, get_eq_ok.mpr ⟨rfl, rfl⟩, pure_eq_ok.mpr ⟨?_, rfl⟩⟩
      rw [hs.format, Bytes.toNat_ofNat hn]

/-- A number with its least significant byte first. -/
theorem natLE (width : Nat) :
    (Read.natLE width).Exact (fun _ n => n < 256 ^ width)
      (fun _ n => Bytes.ofNatLE width n) := by
  rw [Read.natLE, bind_pure_comp]
  refine (bytes width).map (Bytes.ofNatLE width) (fun hlen => ?_) (fun hn => ?_)
  · rw [Bytes.ofNatLE_toNatLE hlen, ← hlen]
    exact ⟨Bytes.toNatLE_lt _, rfl⟩
  · exact ⟨Bytes.length_ofNatLE .., Bytes.toNatLE_ofNatLE hn⟩

/-! ## Counts, and what is counted -/

theorem above (width least : Nat) :
    (Read.above width least).Exact (fun _ n => n < 256 ^ width ∧ ¬ n < least)
      (fun _ n => Bytes.ofNatLE width n) :=
  (natLE width).refuse

end Read.Exact

/-- The first byte of the shortest form of a number: the number itself, or how many bytes
follow. -/
def marker (n : Nat) : UInt8 :=
  if n < 0xfd then UInt8.ofNat n
  else if n ≤ 0xffff then 0xfd
  else if n ≤ 0xffffffff then 0xfe
  else 0xff

/-- The bytes of the shortest form after the first. -/
def payload (n : Nat) : Bytes :=
  if n < 0xfd then []
  else if n ≤ 0xffff then Bytes.ofNatLE 2 n
  else if n ≤ 0xffffffff then Bytes.ofNatLE 4 n
  else Bytes.ofNatLE 8 n

theorem varInt_eq_cons (n : Nat) : varInt n = marker n :: payload n := by
  rw [varInt, marker, payload]
  split
  · rfl
  split
  · rfl
  split
  · rfl
  · rfl

/-- What is read after the first byte. -/
def Read.afterMarker (m : UInt8) : Read Nat :=
  if m = 0xfd then Read.above 2 0xfd
  else if m = 0xfe then Read.above 4 0x10000
  else if m = 0xff then Read.above 8 0x100000000
  else pure m.toNat

/-- The four forms, by their first byte. -/
theorem marker_eq_iff {n : Nat} {m : UInt8} :
    marker n = m ↔
      n < 0xfd ∧ n = m.toNat ∨
      (0xfd ≤ n ∧ n ≤ 0xffff) ∧ m = 0xfd ∨
      (0xffff < n ∧ n ≤ 0xffffffff) ∧ m = 0xfe ∨
      0xffffffff < n ∧ m = 0xff := by
  rw [marker]
  split
  · rename_i h
    rw [← UInt8.toNat_inj, UInt8.toNat_ofNat']
    omega
  split
  · grind
  split
  · grind
  · grind

namespace Read.Exact

variable {α : Type} {fits : Format → α → Prop} {write : Format → α → Bytes}

/-- After a first byte just those numbers are read whose shortest form starts with it. -/
theorem afterMarker (m : UInt8) :
    (Read.afterMarker m).Exact (fun _ n => n < 256 ^ 8 ∧ marker n = m) (fun _ n => payload n) := by
  simp only [marker_eq_iff]
  rw [Read.afterMarker]
  split
  · subst m
    refine (above _ _).congr (fun _ n => ?_) (fun _ n h => ?_)
    · simp; omega
    · rw [payload, if_neg (by omega), if_pos (by omega)]
  split
  · subst m
    refine (above _ _).congr (fun _ n => ?_) (fun _ n h => ?_)
    · simp; omega
    · rw [payload, if_neg (by omega), if_neg (by omega), if_pos (by omega)]
  split
  · subst m
    refine (above _ _).congr (fun _ n => ?_) (fun _ n h => ?_)
    · simp; omega
    · rw [payload, if_neg (by omega), if_neg (by omega), if_neg (by omega)]
  · rename_i hfd hfe hff
    have hm : m.toNat < 0xfd := by
      have := m.toNat_lt
      simp only [← UInt8.toNat_inj, UInt8.reduceToNat] at hfd hfe hff
      omega
    refine (pure m.toNat).congr (fun _ n => ?_) (fun _ n h => ?_)
    · grind
    · rw [payload, if_pos (by omega)]

theorem varInt : Read.varInt.Exact (fun _ n => n < 256 ^ 8) (fun _ n => Codec.varInt n) := by
  change (Read.byte >>= Read.afterMarker).Exact _ _
  refine (byte.bind marker afterMarker fun _ h => h.2).congr (fun _ n => ?_) (fun _ n _ => ?_)
  · simp
  · exact varInt_eq_cons n

theorem size : Read.size.Exact (fun _ n => n ≤ maxSize) (fun _ n => Codec.varInt n) := by
  refine (varInt.refuse (p := (· > maxSize)) (e := .oversizedVector)).congr (fun _ n => ?_)
    (fun _ _ _ => rfl)
  rw [maxSize]
  omega

theorem varBytes :
    Read.varBytes.Exact (fun _ bs => bs.length ≤ maxSize) (fun _ bs => Codec.varBytes bs) := by
  refine (size.bind List.length bytes fun _ h => h).congr (fun _ bs => ?_) (fun _ bs _ => rfl)
  simp

theorem manyOnto_eq_ok {item : Read α} (h : item.Exact fits write) {n : Nat} {acc l : List α}
    {s t : Stream} :
    Read.manyOnto item acc n s = .ok l t ↔
      ∃ items, l = acc.reverse ++ items ∧
        (items.length = n ∧ ∀ a ∈ items, fits s.format a) ∧
        s.Passes (items.flatMap (write s.format)) t := by
  induction n generalizing acc s with
  | zero =>
      rw [Read.manyOnto, pure_eq_ok]
      constructor
      · rintro ⟨rfl, rfl⟩
        exact ⟨[], (List.append_nil _).symm, ⟨rfl, nofun⟩, Stream.passes_nil.mpr rfl⟩
      · rintro ⟨items, rfl, ⟨hlen, _⟩, hs⟩
        obtain rfl := List.eq_nil_of_length_eq_zero hlen
        exact ⟨List.append_nil _, Stream.passes_nil.mp hs⟩
  | succ n ih =>
      rw [Read.manyOnto, bind_eq_ok]
      constructor
      · rintro ⟨a, u, ha, hl⟩
        obtain ⟨ha, hs⟩ := h.read_eq_ok.mp ha
        obtain ⟨items, rfl, ⟨rfl, hitems⟩, hu⟩ := ih.mp hl
        rw [hs.format] at hitems hu
        refine ⟨a :: items, ?_, ⟨rfl, List.forall_mem_cons.mpr ⟨ha, hitems⟩⟩, ?_⟩
        · rw [List.reverse_cons, List.append_assoc]
          rfl
        · exact Stream.passes_append.mpr ⟨u, hs, hu⟩
      · rintro ⟨items, rfl, ⟨hlen, hitems⟩, hs⟩
        cases items with
        | nil => cases hlen
        | cons a items =>
            obtain ⟨ha, hitems⟩ := List.forall_mem_cons.mp hitems
            obtain ⟨u, hs, hu⟩ := Stream.passes_append.mp hs
            refine ⟨a, u, h.read_eq_ok.mpr ⟨ha, hs⟩, ih.mpr ⟨items, ?_, ⟨?_, ?_⟩, ?_⟩⟩
            · rw [List.reverse_cons, List.append_assoc]
              rfl
            · exact Nat.succ.inj hlen
            · rw [hs.format]
              exact hitems
            · rw [hs.format]
              exact hu

theorem many {item : Read α} (h : item.Exact fits write) (n : Nat) :
    (Read.many item n).Exact (fun g l => l.length = n ∧ ∀ a ∈ l, fits g a)
      (fun g l => l.flatMap (write g)) where
  read_eq_ok := by
    intro s l t
    rw [Read.many, manyOnto_eq_ok h]
    exact ⟨fun ⟨_, hl, h⟩ => hl ▸ h, fun h => ⟨l, rfl, h⟩⟩

end Read.Exact

/-! ## Types with an exact wire format -/

/-- A type whose reader reads exactly what is written for the values that fit. -/
class ExactWire (α : Type) [Wire α] where
  fits : Format → α → Prop
  reads : (read : Read α).Exact fits write

export ExactWire (fits reads)

instance : ExactWire UInt32 where
  fits _ _ := True
  reads := by
    refine ((Read.Exact.nat 4).map UInt32.toNat (fun h => ?_) (fun {_ n} _ => ?_))
    · refine ⟨trivial, UInt32.toNat_ofNat_of_lt' ?_⟩
      exact h
    · exact ⟨n.toNat_lt, UInt32.ofNat_toNat⟩

instance : ExactWire UInt64 where
  fits _ _ := True
  reads := by
    refine ((Read.Exact.nat 8).map UInt64.toNat (fun h => ?_) (fun {_ n} _ => ?_))
    · refine ⟨trivial, UInt64.toNat_ofNat_of_lt' ?_⟩
      exact h
    · exact ⟨n.toNat_lt, UInt64.ofNat_toNat⟩

instance : ExactWire Int32 where
  fits _ _ := True
  reads := (reads (α := UInt32)).map Int32.toUInt32 (fun _ => ⟨trivial, rfl⟩)
    fun _ => ⟨trivial, rfl⟩

instance : ExactWire Int64 where
  fits _ _ := True
  reads := (reads (α := UInt64)).map Int64.toUInt64 (fun _ => ⟨trivial, rfl⟩)
    fun _ => ⟨trivial, rfl⟩

instance {size : Nat} : ExactWire (Digest size) where
  fits _ _ := True
  reads := Read.Exact.digest size

/-- A list of values that fit, as many as may be counted. -/
theorem Read.Exact.list {α : Type} [Wire α] [ExactWire α] :
    (Read.list : Read (List α)).Exact (fun g l => l.length ≤ maxSize ∧ ∀ a ∈ l, fits g a)
      writeList := by
  refine (size.bind List.length (fun n => Exact.many reads n) fun _ h => h.1).congr (fun _ l => ?_)
    (fun _ l _ => rfl)
  simp

end StakeChain.Codec
