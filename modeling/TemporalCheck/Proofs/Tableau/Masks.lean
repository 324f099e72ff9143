import Mathlib.Data.List.Nodup
import Mathlib.Data.Nat.Bitwise
import TemporalCheck.Tableau.ToAutomaton

/-!
# Masks over a list of names

A word has sixty-four bits, so a shift by less than that loses nothing. The words below the bit
at `count` then select every choice among `count` names, each choice by one word only.
-/

namespace TemporalCheck.Tableau

variable {i count : Nat} {mask mask' : UInt64} {names : List String} {a : String}

theorem toNat_bit (hi : i < 64) : (bit i).toNat = 2 ^ i := by
  have hshift : (UInt64.ofNat i).toNat % 64 = i := by
    rw [UInt64.toNat_ofNat']
    omega
  have hlt : 2 ^ i < 2 ^ 64 := Nat.pow_lt_pow_right (by omega) hi
  rw [bit, UInt64.toNat_shiftLeft, hshift, UInt64.toNat_one, Nat.one_shiftLeft,
    Nat.mod_eq_of_lt hlt]

theorem min_freeLimit_lt (maxFree : Nat) : min maxFree freeLimit < 64 := by
  rw [freeLimit]
  omega

theorem length_masks (hc : count < 64) : (masks count).length = 2 ^ count := by
  rw [masks, List.length_map, List.length_range, toNat_bit hc]

theorem toNat_ofNat_of_lt_bit {k : Nat} (hk : k < (bit count).toNat) :
    (UInt64.ofNat k).toNat = k := by
  rw [UInt64.toNat_ofNat', Nat.mod_eq_of_lt (Nat.lt_trans hk (bit count).toNat_lt)]

theorem mem_masks (hc : count < 64) : mask ∈ masks count ↔ mask.toNat < 2 ^ count := by
  rw [← toNat_bit hc, masks, List.mem_map]
  constructor
  · intro h
    obtain ⟨k, hk, rfl⟩ := h
    have hlt := List.mem_range.1 hk
    rwa [toNat_ofNat_of_lt_bit hlt]
  · intro h
    exact ⟨mask.toNat, List.mem_range.2 h, UInt64.ofNat_toNat⟩

theorem nodup_masks (count : Nat) : (masks count).Nodup := by
  refine List.Nodup.map_on (fun j hj k hk he => ?_) List.nodup_range
  rw [← toNat_ofNat_of_lt_bit (List.mem_range.1 hj), he,
    toNat_ofNat_of_lt_bit (List.mem_range.1 hk)]

theorem and_bit_bne_zero (hi : i < 64) : (mask &&& bit i != 0) = mask.toNat.testBit i := by
  rw [Bool.eq_iff_iff, bne_iff_ne, ne_eq, ← UInt64.toNat_inj, UInt64.toNat_and, toNat_bit hi,
    Nat.and_two_pow]
  cases mask.toNat.testBit i <;> simp

theorem mem_of_mem_select (h : a ∈ select mask names) : a ∈ names := by
  obtain ⟨x, hx, rfl⟩ := List.mem_map.1 h
  exact List.mem_of_getElem? (List.mem_zipIdx_iff_getElem?.1 (List.mem_filter.1 hx).1)

theorem mem_select (hn : names.length ≤ 64) :
    a ∈ select mask names ↔ ∃ i, names[i]? = some a ∧ mask.toNat.testBit i = true := by
  simp only [select, List.mem_map, List.mem_filter, List.mem_zipIdx_iff_getElem?]
  constructor
  · intro h
    obtain ⟨⟨x, i⟩, ⟨hx, hbit⟩, rfl⟩ := h
    have hi := (List.getElem?_eq_some_iff.1 hx).1
    exact ⟨i, hx, by rwa [and_bit_bne_zero (by omega)] at hbit⟩
  · intro h
    obtain ⟨i, ha, hbit⟩ := h
    have hi := (List.getElem?_eq_some_iff.1 ha).1
    exact ⟨(a, i), ⟨ha, by rwa [and_bit_bne_zero (by omega)]⟩, rfl⟩

theorem exists_mask (hn : names.length < 64) (p : String → Bool) :
    ∃ mask ∈ masks names.length, ∀ a, a ∈ select mask names ↔ a ∈ names ∧ p a = true := by
  let bits := Nat.ofBits fun i : Fin names.length => p names[i]
  have hlt : bits < 2 ^ names.length := Nat.ofBits_lt_two_pow _
  have hword : (UInt64.ofNat bits).toNat = bits := by
    rw [← toNat_bit hn] at hlt
    exact toNat_ofNat_of_lt_bit hlt
  refine ⟨.ofNat bits, (mem_masks hn).2 (by rwa [hword]), fun a => ?_⟩
  rw [mem_select (Nat.le_of_lt hn), hword, List.mem_iff_getElem?]
  constructor
  · intro h
    obtain ⟨i, ha, hbit⟩ := h
    obtain ⟨hi, rfl⟩ := List.getElem?_eq_some_iff.1 ha
    rw [Nat.testBit_ofBits_lt _ i hi] at hbit
    exact ⟨⟨i, ha⟩, hbit⟩
  · intro h
    obtain ⟨⟨i, ha⟩, hp⟩ := h
    obtain ⟨hi, rfl⟩ := List.getElem?_eq_some_iff.1 ha
    exact ⟨i, ha, by rwa [Nat.testBit_ofBits_lt _ i hi]⟩

theorem getElem_mem_select_iff (hn : names.length ≤ 64) (hd : names.Nodup)
    (hi : i < names.length) : names[i] ∈ select mask names ↔ mask.toNat.testBit i = true := by
  rw [mem_select hn]
  constructor
  · intro h
    obtain ⟨j, hj, hbit⟩ := h
    obtain ⟨hlt, he⟩ := List.getElem?_eq_some_iff.1 hj
    rwa [(hd.getElem_inj_iff).1 he] at hbit
  · intro hbit
    exact ⟨i, List.getElem?_eq_getElem hi, hbit⟩

theorem eq_of_select_iff (hn : names.length < 64) (hd : names.Nodup)
    (hmask : mask ∈ masks names.length) (hmask' : mask' ∈ masks names.length)
    (h : ∀ a ∈ names, a ∈ select mask names ↔ a ∈ select mask' names) : mask = mask' := by
  rw [mem_masks hn] at hmask hmask'
  apply UInt64.toNat_inj.1
  apply Nat.eq_of_testBit_eq
  intro i
  by_cases hi : i < names.length
  · have he := h names[i] (List.getElem_mem hi)
    rwa [getElem_mem_select_iff (Nat.le_of_lt hn) hd hi,
      getElem_mem_select_iff (Nat.le_of_lt hn) hd hi, ← Bool.eq_iff_iff] at he
  -- Neither word has a bit beyond the names.
  · have hpow : 2 ^ names.length ≤ 2 ^ i := Nat.pow_le_pow_right (by omega) (by omega)
    rw [Nat.testBit_lt_two_pow (Nat.lt_of_lt_of_le hmask hpow),
      Nat.testBit_lt_two_pow (Nat.lt_of_lt_of_le hmask' hpow)]

end TemporalCheck.Tableau
