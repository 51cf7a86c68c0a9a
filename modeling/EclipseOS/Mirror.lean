import EclipseOS.ImageMemory

/-!
# Machines over a byte memory

Runs of stores and the relocation pass, for machines that stay in step with a
partial byte memory.  Which part of the machine the memory is does not matter.
-/

namespace EclipseOS

open LittleEndian

namespace Machine

variable {m m' : Machine} {base : ℕ}

theorem memset_eq_memcpyFrom (m : Machine) (va : ℕ) (v : UInt8) (off n : ℕ) :
    m.memset va v n = m.memcpyFrom va (fun _ ↦ v) off n := by
  induction n generalizing m va off with
  | zero => rfl
  | succ n ih => simp only [memset, memcpyFrom, ih _ _ (off + 1)]

/-- Addresses are taken modulo `2 ^ 32`. -/
theorem translate_congr_mod {a b : ℕ} (h : a % 2 ^ 32 = b % 2 ^ 32) :
    m.translate a = m.translate b := by
  have h₁ : (a >>> 22) &&& 0x3FF = (b >>> 22) &&& 0x3FF := by
    simp only [and_index_mask, Nat.shiftRight_eq_div_pow]
    omega
  have h₂ : (a >>> 12) &&& 0x3FF = (b >>> 12) &&& 0x3FF := by
    simp only [and_index_mask, Nat.shiftRight_eq_div_pow]
    omega
  have h₃ : a &&& 0xFFF = b &&& 0xFFF := by
    simp only [and_offset_mask]
    omega
  simp only [translate, h₁, h₂, h₃]

theorem load32_mod (m : Machine) (a : ℕ) : m.load32 (a % 2 ^ 32) = m.load32 a := by
  have hk : ∀ k, m.load8 (a % 2 ^ 32 + k) = m.load8 (a + k) := fun k ↦ by
    rw [load8, load8, translate_congr_mod (b := a + k) (by omega)]
  have h₀ := hk 0
  rw [Nat.add_zero, Nat.add_zero] at h₀
  simp only [load32, h₀, hk]

/-- The body of the relocation loop, for the record at `a`. -/
def relocateRecord (m : Machine) (base a : ℕ) : Option Machine := do
  let rInfo ← m.load32 (a + 4)
  if rInfo &&& 0xFF = R_386_RELATIVE then
    let rOffset ← m.load32 a
    let v ← m.load32 ((base + rOffset) % 2 ^ 32)
    m.store32 ((base + rOffset) % 2 ^ 32) (v + base)
  else some m

theorem relocate_succ (m : Machine) (base : ℕ) (info : DynInfo) (fuel off : ℕ) :
    m.relocate base info (fuel + 1) off =
      if off < info.relsz then (m.relocateRecord base (info.rel + off)).bind fun m ↦
        m.relocate base info fuel ((off + info.relent) % 2 ^ 32)
      else some m := by
  rw [relocate]
  refine if_congr Iff.rfl ?_ rfl
  rw [relocateRecord, Option.bind_eq_bind, Option.bind_assoc]
  refine congrArg _ (funext fun rInfo ↦ ?_)
  split
  · simp only [Option.bind_eq_bind, Option.bind_assoc]
  · simp only [Option.bind_eq_bind, Option.bind_some]

/-! ## Loads -/

section Loads

variable {β : Bytes} {d tag fuel : ℕ} {info r : DynInfo}

theorem load32_of_extends (h : Extends β m.load8) {a w : ℕ} (hw : read32 β a = some w) :
    m.load32 a = some w :=
  h.read32 hw

theorem dynEntry_of_extends (h : Extends β m.load8)
    (hrun : dynEntryBytes β base info d tag = .ok r) : m.dynEntry base info d tag = some r := by
  have hread : ∀ {f : ℕ → DynInfo},
      (readWord β (d + 4) (.read (d + 4))).map f = .ok r → (m.load32 (d + 4)).map f = some r := by
    intro f hf
    obtain ⟨val, hval, rfl⟩ := map_eq_ok.mp hf
    rw [load32_of_extends h (readWord_eq_ok.mp hval), Option.map_some]
  rw [dynEntryBytes] at hrun
  rw [dynEntry]
  split_ifs at hrun ⊢
  · exact hread hrun
  · exact hread hrun
  · exact hread hrun
  · exact congrArg some (Except.ok.inj hrun)

theorem scanDynamic_of_extends (h : Extends β m.load8)
    (hrun : scanBytes β base info fuel d = .ok r) : m.scanDynamic base info fuel d = some r := by
  induction fuel generalizing info d with
  | zero => cases hrun
  | succ fuel ih =>
      rw [scanBytes, bind_eq_ok] at hrun
      obtain ⟨tag, htag, hrun⟩ := hrun
      rw [scanDynamic, load32_of_extends h (readWord_eq_ok.mp htag), Option.bind_eq_bind,
        Option.bind_some]
      split at hrun
      · next hnull =>
          rw [if_pos hnull]
          exact congrArg some (Except.ok.inj hrun)
      · next hnull =>
          rw [bind_eq_ok] at hrun
          obtain ⟨info', hentry, hrun⟩ := hrun
          rw [if_neg hnull, dynEntry_of_extends h hentry, Option.bind_eq_bind, Option.bind_some]
          exact ih hrun

end Loads

end Machine

/-! ## Stores -/

/-- What is in the memory, or beside it in `κ`, is what the machine loads.  A store
to a byte of the memory changes that byte and moves no page of it. -/
structure Mirrors (R : Machine → Bytes → Prop) (κ : Bytes) : Prop where
  load8 : ∀ {m : Machine} {μ : Bytes}, R m μ → Extends (beside μ κ) m.load8
  store8 : ∀ {m : Machine} {μ : Bytes} {x : ℕ} (b : UInt8), R m μ → μ x ≠ none →
    ∃ m', m.store8 x b = some m' ∧ R m' (Function.update μ x (some b)) ∧
      ∀ y, μ y ≠ none → m'.translate y = m.translate y

namespace Mirrors

variable {R : Machine → Bytes → Prop} {κ μ ν : Bytes} {m : Machine} {va n base : ℕ} {data : Image}

theorem memcpyFrom (hR : Mirrors R κ) (h : R m μ) (hdef : Defined μ va n) (src : ℕ → UInt8)
    (off : ℕ) : ∃ m', m.memcpyFrom va src off n = some m' ∧
      R m' (fill μ va n fun k ↦ src ((off + k) % 2 ^ 32)) := by
  induction n generalizing m μ va off with
  | zero => exact ⟨m, rfl, by rwa [fill_zero]⟩
  | succ n ih =>
      obtain ⟨hva, hrest⟩ := hdef.succ
      obtain ⟨m₁, hstore, h₁, -⟩ := hR.store8 (src (off % 2 ^ 32)) h hva
      obtain ⟨m₂, hrun, h₂⟩ := ih h₁ hrest.update (off + 1)
      refine ⟨m₂, by rw [Machine.memcpyFrom, hstore, Option.bind_eq_bind, Option.bind_some, hrun], ?_⟩
      rw [← fill_succ]
      simpa only [Nat.add_zero, Nat.add_right_comm off 1, Nat.add_assoc] using h₂

theorem memset (hR : Mirrors R κ) (h : R m μ) (hdef : Defined μ va n) (v : UInt8) :
    ∃ m', m.memset va v n = some m' ∧ R m' (fill μ va n fun _ ↦ v) := by
  rw [Machine.memset_eq_memcpyFrom m va v 0 n]
  exact hR.memcpyFrom h hdef (fun _ ↦ v) 0

theorem translates (hR : Mirrors R κ) (h : R m μ) (hva : μ va ≠ none) :
    ∃ p, m.translate va = some p := by
  obtain ⟨b, hb⟩ := Option.ne_none_iff_exists'.mp hva
  have hload := hR.load8 h va b (by rw [beside, hb, Option.some_or])
  rw [Machine.load8, Option.map_eq_some_iff] at hload
  obtain ⟨p, hp, -⟩ := hload
  exact ⟨p, hp⟩

theorem store32 (hR : Mirrors R κ) (h : R m μ) (hdef : Defined μ va 4) (w : ℕ) :
    ∃ m', m.store32 va w = some m' ∧ R m' (write32 μ va w) := by
  obtain ⟨p₀, h₀⟩ := hR.translates h (hdef 0 (by norm_num))
  obtain ⟨p₁, h₁⟩ := hR.translates h (hdef 1 (by norm_num))
  obtain ⟨p₂, h₂⟩ := hR.translates h (hdef 2 (by norm_num))
  obtain ⟨p₃, h₃⟩ := hR.translates h (hdef 3 (by norm_num))
  -- the four stores one after another make the same machine
  have hstore : ∀ {m₁ : Machine} {μ₁ : Bytes} {k : ℕ} {p : ℕ × ℕ}, R m₁ μ₁ → Defined μ₁ va 4 → k < 4 →
      m₁.translate (va + k) = some p → R (m₁.poke p (byteOf w k))
        (Function.update μ₁ (va + k) (some (byteOf w k))) ∧
        ∀ j < 4, (m₁.poke p (byteOf w k)).translate (va + j) = m₁.translate (va + j) := by
    intro m₁ μ₁ k p hm₁ hdef₁ hk hp
    obtain ⟨m₂, hrun, hm₂, hsame⟩ := hR.store8 (byteOf w k) hm₁ (hdef₁ k hk)
    rw [Machine.store8, hp, Option.map_some, Option.some.injEq] at hrun
    subst hrun
    exact ⟨hm₂, fun j hj ↦ hsame _ (hdef₁ j hj)⟩
  obtain ⟨hm₁, hs₁⟩ := hstore h hdef (k := 0) (by norm_num) h₀
  obtain ⟨hm₂, hs₂⟩ := hstore hm₁ hdef.update (k := 1) (by norm_num) (by rw [hs₁ 1 (by norm_num), h₁])
  obtain ⟨hm₃, hs₃⟩ := hstore hm₂ hdef.update.update (k := 2) (by norm_num)
    (by rw [hs₂ 2 (by norm_num), hs₁ 2 (by norm_num), h₂])
  obtain ⟨hm₄, -⟩ := hstore hm₃ hdef.update.update.update (k := 3) (by norm_num)
    (by rw [hs₃ 3 (by norm_num), hs₂ 3 (by norm_num), hs₁ 3 (by norm_num), h₃])
  rw [Nat.add_zero] at h₀ hm₄
  suffices heq : write32 μ va w = Function.update (Function.update (Function.update
      (Function.update μ va (some (byteOf w 0))) (va + 1) (some (byteOf w 1))) (va + 2)
        (some (byteOf w 2))) (va + 3) (some (byteOf w 3)) by
    exact ⟨_, by simp [Machine.store32, h₀, h₁, h₂, h₃], heq ▸ hm₄⟩
  funext x
  simp only [write32, Function.update_apply, fill]
  by_cases hx : va ≤ x ∧ x < va + 4
  · rw [if_pos hx]
    obtain rfl | rfl | rfl | rfl : x = va ∨ x = va + 1 ∨ x = va + 2 ∨ x = va + 3 := by omega
    · simp
    · simp
    · simp
    · simp
  · rw [if_neg hx, if_neg (by omega), if_neg (by omega), if_neg (by omega), if_neg (by omega)]

/-! ## Relocations -/

theorem record (hR : Mirrors R κ) (h : R m μ) {a : ℕ} (hrecord : recordBytes κ μ base a = .ok ν) :
    ∃ m', m.relocateRecord base a = some m' ∧ R m' ν := by
  rw [recordBytes, bind_eq_ok] at hrecord
  obtain ⟨rInfo, hinfo, hrecord⟩ := hrecord
  have hload := Machine.load32_of_extends (hR.load8 h) (readWord_eq_ok.mp hinfo)
  rw [Machine.load32_mod] at hload
  rw [Machine.relocateRecord, hload, Option.bind_eq_bind, Option.bind_some]
  split at hrecord
  · next htype =>
      obtain ⟨rOffset, v, hoff, hv, rfl⟩ := patchBytes_eq_ok.mp hrecord
      have hload' := Machine.load32_of_extends (hR.load8 h) hoff
      rw [Machine.load32_mod] at hload'
      have hdef : Defined μ ((base + rOffset) % 2 ^ 32) 4 := by
        by_contra hno
        rw [read32_eq_none.mpr hno] at hv
        cases hv
      have hext : Extends μ (beside μ κ) := fun x b hb ↦ by rw [beside, hb, Option.some_or]
      obtain ⟨m', hstore, hm'⟩ := hR.store32 h hdef (v + base)
      refine ⟨m', ?_, hm'⟩
      rw [if_pos htype, hload', Option.bind_some,
        Machine.load32_of_extends (hR.load8 h) (hext.read32 hv), Option.bind_some, hstore]
  · next htype =>
      obtain rfl := Except.ok.inj hrecord
      rw [if_neg htype]
      exact ⟨m, rfl, h⟩

theorem relocate (hR : Mirrors R κ) (h : R m μ) {info : Machine.DynInfo} {fuel off : ℕ}
    (hrun : relocateBytes κ μ base info fuel off = .ok ν) :
    ∃ m', m.relocate base info fuel off = some m' ∧ R m' ν := by
  induction fuel generalizing m μ off with
  | zero => cases hrun
  | succ fuel ih =>
      rw [relocateBytes] at hrun
      rw [Machine.relocate_succ]
      split at hrun
      · next hlt =>
          rw [bind_eq_ok] at hrun
          obtain ⟨μ₁, hrecord, hrun⟩ := hrun
          obtain ⟨m₁, hstep, h₁⟩ := hR.record h hrecord
          obtain ⟨m₂, hrest, h₂⟩ := ih h₁ hrun
          refine ⟨m₂, ?_, h₂⟩
          rw [if_pos hlt, hstep, Option.bind_some, hrest]
      · next hlt =>
          obtain rfl := Except.ok.inj hrun
          rw [if_neg hlt]
          exact ⟨m, rfl, h⟩

theorem applyRelocations (hR : Mirrors R κ) (h : R m μ) (hrun : data.relocated base κ μ = .ok ν) :
    ∃ m', m.applyRelocations data base = some m' ∧ R m' ν := by
  rw [Image.relocated] at hrun
  rw [Machine.applyRelocations]
  cases hdyn : Machine.dynamicHeader data with
  | none =>
      rw [hdyn] at hrun
      obtain rfl := Except.ok.inj hrun
      exact ⟨m, rfl, h⟩
  | some j =>
      rw [hdyn] at hrun
      dsimp only at hrun ⊢
      split at hrun
      · next hzero =>
          obtain rfl := Except.ok.inj hrun
          rw [if_pos hzero]
          exact ⟨m, rfl, h⟩
      · next hzero =>
          rw [bind_eq_ok] at hrun
          obtain ⟨info, hscan, hrun⟩ := hrun
          rw [if_neg hzero, Machine.scanDynamic_of_extends (hR.load8 h) hscan, Option.bind_eq_bind,
            Option.bind_some]
          exact hR.relocate h hrun

end Mirrors

end EclipseOS
