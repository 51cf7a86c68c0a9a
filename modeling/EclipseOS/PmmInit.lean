import EclipseOS.Frames
import EclipseOS.Pmm
import EclipseOS.Sample

/-!
# The bitmap after its initialization

The three passes leave a frame free if a clearing loop visits it and no
reserving loop does.  Not all of their writes need be to the bitmap's own bytes.
-/

namespace EclipseOS

namespace MultibootMmapEntry

variable (e : MultibootMmapEntry)

/-- The clearing loop of the entry does not end. -/
def Wraps : Prop := e.available = true ∧ 0xFFFFF000 + e.base32 % 4096 < e.stop32

/-- The clearing loop of the entry comes to frame `f`. -/
def Visits (f : ℕ) : Prop :=
  e.available = true ∧ e.base32 / 4096 ≤ f ∧
    f < e.base32 / 4096 + (e.stop32 - e.base32 + 0xFFF) / 0x1000

/-- Byte `x` of physical memory is in the region. -/
def Covers (x : ℕ) : Prop :=
  e.available = true ∧ e.addr.toNat ≤ x ∧ x < e.addr.toNat + e.len.toNat

theorem clearRegion_eq_none : e.clearRegion = none ↔ e.Wraps := by
  rw [clearRegion, Wraps]
  cases e.available <;> simp

theorem mem_clearRegion {ws : List BitmapWrite} (h : e.clearRegion = some ws) (w : BitmapWrite) :
    w ∈ ws ↔ ∃ f, w = .clear f ∧ e.Visits f := by
  rw [clearRegion] at h
  by_cases ha : e.available = true
  · rw [if_neg (by simp [ha])] at h
    split at h
    · cases h
    · rw [Option.some.injEq] at h
      rw [← h, List.mem_map]
      constructor
      · rintro ⟨a, ha', rfl⟩
        rw [pagesBetween, List.mem_map] at ha'
        obtain ⟨i, hi, rfl⟩ := ha'
        rw [List.mem_range] at hi
        exact ⟨_, rfl, ha, by rw [PAGE_SIZE]; omega, by rw [PAGE_SIZE]; omega⟩
      · rintro ⟨f, rfl, -, hlo, hhi⟩
        refine ⟨e.base32 + 0x1000 * (f - e.base32 / 4096), ?_, ?_⟩
        · rw [pagesBetween, List.mem_map]
          exact ⟨f - e.base32 / 4096, by rw [List.mem_range]; omega, rfl⟩
        · rw [PAGE_SIZE]
          congr 1
          omega
  · rw [if_pos (by simpa using ha), Option.some.injEq] at h
    rw [← h]
    constructor
    · intro hw
      cases hw
    · rintro ⟨f, -, hav, -⟩
      exact absurd hav ha

end MultibootMmapEntry

theorem mem_setFrames {w : BitmapWrite} {first last : ℕ} :
    w ∈ setFrames first last ↔ ∃ f, w = .set f ∧ first ≤ f ∧ f ≤ last := by
  rw [setFrames, List.mem_map]
  constructor
  · rintro ⟨f, hf, rfl⟩
    rw [List.mem_range'_1] at hf
    exact ⟨f, rfl, hf.1, by omega⟩
  · rintro ⟨f, rfl, h₁, h₂⟩
    exact ⟨f, by rw [List.mem_range'_1]; omega, rfl⟩

namespace MultibootInfo

variable (mbi : MultibootInfo) (img : KernelImage)

/-! ## The loops -/

/-- A reserving loop comes to frame `f`. -/
def Reserves (f : ℕ) : Prop := .set f ∈ mbi.setReserved img

theorem setReserved_set {w : BitmapWrite} (h : w ∈ mbi.setReserved img) : ∃ f, w = .set f := by
  simp only [setReserved, List.mem_append, List.mem_map] at h
  obtain (⟨a, -, rfl⟩ | h) | h := h
  · exact ⟨_, rfl⟩
  · obtain ⟨f, rfl, -⟩ := mem_setFrames.mp h
    exact ⟨f, rfl⟩
  · split at h
    · rw [List.mem_append, List.mem_flatMap] at h
      obtain ⟨mod, -, h⟩ | h := h <;> obtain ⟨f, rfl, -⟩ := mem_setFrames.mp h <;> exact ⟨f, rfl⟩
    · exact nomatch h

theorem bitmapBytes_le : mbi.bitmapBytes ≤ 2 ^ 17 := by
  have h := mbi.highest_lt
  rw [bitmapBytes, totalFrames, PAGE_SIZE]
  omega

theorem reserves_iff (f : ℕ) : mbi.Reserves img f ↔
    f < 256 ∨ (256 ≤ f ∧ f ≤ (img.kernelEnd + mbi.bitmapBytes - 1) / 4096) ∨
      (mbi.hasMods = true ∧ ((∃ mod ∈ mbi.mods, mod.modStart.toNat / 4096 ≤ f ∧
          f ≤ pred32 mod.modEnd.toNat / 4096) ∨
        (mbi.modsAddr / 4096 ≤ f ∧
          f ≤ pred32 ((mbi.modsAddr + mbi.mods.length * SIZEOF_MODULE) % 2 ^ 32) / 4096))) := by
  have hlow : BitmapWrite.set f ∈ (pagesBetween 0 0x100000).map (fun a ↦ .set (a / PAGE_SIZE)) ↔
      f < 256 := by
    rw [List.mem_map]
    constructor
    · rintro ⟨a, ha, h⟩
      rw [pagesBetween, List.mem_map] at ha
      obtain ⟨i, hi, rfl⟩ := ha
      rw [List.mem_range] at hi
      rw [BitmapWrite.set.injEq, PAGE_SIZE] at h
      omega
    · intro hf
      refine ⟨0 + 0x1000 * f, ?_, by rw [PAGE_SIZE]; congr 1; omega⟩
      rw [pagesBetween, List.mem_map]
      exact ⟨f, by rw [List.mem_range]; omega, rfl⟩
  have hkernel : pred32 ((img.kernelEnd + mbi.bitmapBytes) % 2 ^ 32) / PAGE_SIZE =
      (img.kernelEnd + mbi.bitmapBytes - 1) / 4096 := by
    have h₁ := img.start_lt
    have h₂ := img.end_le
    have h₃ := mbi.bitmapBytes_le
    rw [KERNEL_START] at h₁
    rw [pred32, PAGE_SIZE]
    omega
  have hset : ∀ first last, BitmapWrite.set f ∈ setFrames first last ↔ first ≤ f ∧ f ≤ last := by
    intro first last
    rw [mem_setFrames]
    simp
  simp only [Reserves, setReserved, List.mem_append, hlow, hset, hkernel, or_assoc]
  refine or_congr_right (or_congr (by rw [KERNEL_START, PAGE_SIZE]) ?_)
  cases mbi.hasMods
  · simp
  · simp [List.mem_append, List.mem_flatMap, setModule, hset, PAGE_SIZE]

theorem clearRegions_spec :
    (mbi.clearRegions = none ↔ ∃ e ∈ mbi.mmap, e.Wraps) ∧
      ∀ ws, mbi.clearRegions = some ws →
        ∀ w, w ∈ ws ↔ ∃ e ∈ mbi.mmap, ∃ f, w = .clear f ∧ e.Visits f := by
  have h : ∀ (l : List MultibootMmapEntry) (ws₀ : List BitmapWrite),
      (l.foldlM (fun ws e ↦ e.clearRegion.map (ws ++ ·)) ws₀ = none ↔ ∃ e ∈ l, e.Wraps) ∧
        ∀ ws, l.foldlM (fun ws e ↦ e.clearRegion.map (ws ++ ·)) ws₀ = some ws →
          ∀ w, w ∈ ws ↔ w ∈ ws₀ ∨ ∃ e ∈ l, ∃ f, w = .clear f ∧ e.Visits f := by
    intro l
    induction l with
    | nil =>
        intro ws₀
        simp
    | cons e l ih =>
        intro ws₀
        rw [List.foldlM_cons]
        cases he : e.clearRegion with
        | none =>
            have hw := e.clearRegion_eq_none.mp he
            simp [hw]
        | some ws₁ =>
            have hw : ¬ e.Wraps := fun hw ↦ by
              rw [e.clearRegion_eq_none.mpr hw] at he
              exact nomatch he
            obtain ⟨hnone, hsome⟩ := ih (ws₀ ++ ws₁)
            refine ⟨?_, fun ws hws w ↦ ?_⟩
            · simpa [hw] using hnone
            · rw [hsome ws (by simpa using hws), List.mem_append, e.mem_clearRegion he]
              simp [or_assoc]
  obtain ⟨hnone, hsome⟩ := h mbi.mmap []
  exact ⟨hnone, fun ws hws w ↦ by rw [hsome ws hws]; simp⟩

end MultibootInfo

/-! ## The bits -/

namespace Machine

variable (m : Machine) {ws : List BitmapWrite} {f : ℕ}

theorem frameTest_frameFill (bytes : ℕ) :
    (m.frameFill bytes).frameTest f = (decide (f < 8 * bytes) || m.frameTest f) := by
  rw [frameTest_eq, frameTest_eq, frameFill, BitVec.getLsbD_or, Bool.or_comm]
  congr 1
  have hlt : f % 32 < 32 := Nat.mod_lt _ (by norm_num)
  rw [BitVec.getLsbD_ofNat, Nat.testBit_two_pow_sub_one]
  simp only [hlt, decide_true, Bool.true_and, decide_eq_decide]
  omega

theorem frameTest_clears (h : ∀ w ∈ ws, ∃ f, w = .clear f) :
    (ws.foldl applyWrite m).frameTest f = (decide (.clear f ∉ ws) && m.frameTest f) := by
  induction ws generalizing m with
  | nil => simp
  | cons w ws ih =>
      obtain ⟨g, rfl⟩ := h w (by simp)
      rw [List.foldl_cons, ih _ fun w hw ↦ h w (by simp [hw]), applyWrite, frameTest_frameClear]
      by_cases hfg : f = g <;> by_cases hin : BitmapWrite.clear f ∈ ws <;> simp [hfg, hin]

theorem frameTest_sets (h : ∀ w ∈ ws, ∃ f, w = .set f) :
    (ws.foldl applyWrite m).frameTest f = (decide (.set f ∈ ws) || m.frameTest f) := by
  induction ws generalizing m with
  | nil => simp
  | cons w ws ih =>
      obtain ⟨g, rfl⟩ := h w (by simp)
      rw [List.foldl_cons, ih _ fun w hw ↦ h w (by simp [hw]), applyWrite, frameTest_frameSet]
      by_cases hfg : f = g <;> by_cases hin : BitmapWrite.set f ∈ ws <;> simp [hfg, hin]

variable {mbi : MultibootInfo} {img : KernelImage} {m' : Machine}

/-- A frame below the top is free if it was cleared and not set again. -/
theorem pmmInitialize_spec (h : m.pmmInitialize mbi img = some m') :
    m'.totalFrames = mbi.totalFrames ∧ ∀ f, f < mbi.totalFrames →
      (m'.frameTest f = false ↔ (∃ e ∈ mbi.mmap, e.Visits f) ∧ ¬ mbi.Reserves img f) := by
  rw [pmmInitialize, MultibootInfo.pmmWrites] at h
  cases hws : mbi.clearRegions with
  | none => simp [hws] at h
  | some cleared =>
      have hmem := mbi.clearRegions_spec.2 cleared hws
      simp only [hws, Option.pure_def, Option.bind_eq_bind, Option.bind_some,
        Option.some.injEq] at h
      subst h
      refine ⟨rfl, fun f hf ↦ ?_⟩
      have hclear : (BitmapWrite.clear f ∈ cleared) ↔ ∃ e ∈ mbi.mmap, e.Visits f := by
        rw [hmem]
        simp
      have hlt : f < 8 * mbi.bitmapBytes := by
        rw [MultibootInfo.bitmapBytes]
        omega
      change ((BitmapWrite.fill mbi.bitmapBytes :: cleared ++ mbi.setReserved img).foldl
        applyWrite m).frameTest f = false ↔ _
      rw [List.foldl_append, List.foldl_cons,
        frameTest_sets _ fun w hw ↦ mbi.setReserved_set img hw,
        frameTest_clears _ fun w hw ↦ by
          obtain ⟨e, -, g, rfl, -⟩ := (hmem w).mp hw
          exact ⟨g, rfl⟩,
        applyWrite, frameTest_frameFill, Bool.or_eq_false_iff, decide_eq_false_iff_not, ← hclear,
        MultibootInfo.Reserves]
      simp only [hlt, decide_true, Bool.true_or, Bool.and_true, decide_eq_false_iff_not, not_not]
      exact and_comm

end Machine

namespace MultibootInfo

variable (mbi : MultibootInfo) (img : KernelImage)

/-! ## The writes -/

/-- Nothing lies in both ranges. -/
def Apart (lo hi lo' hi' : ℕ) : Prop := ∀ x, ¬ (lo ≤ x ∧ x < hi ∧ lo' ≤ x ∧ x < hi')

/-- Byte `x` of the bitmap is written; a bit is changed by a store of its word. -/
def Touches (x : ℕ) : BitmapWrite → Prop
  | .fill bytes => x < bytes
  | .set frame => 4 * (frame / 32) ≤ x ∧ x < 4 * (frame / 32) + 4
  | .clear frame => 4 * (frame / 32) ≤ x ∧ x < 4 * (frame / 32) + 4

/-- `f` is the argument of a `frame_set` or a `frame_clear`. -/
def Indexes (f : ℕ) (w : BitmapWrite) : Prop := w = .set f ∨ w = .clear f

/-- The bitmap stays clear of everything the boot loader left in memory. -/
structure BitmapApart : Prop where
  mods : mbi.hasMods = true → (∀ mod ∈ mbi.mods, Apart img.kernelEnd
      (img.kernelEnd + mbi.bitmapBytes) mod.modStart.toNat mod.modEnd.toNat) ∧
    Apart img.kernelEnd (img.kernelEnd + mbi.bitmapBytes) mbi.modsAddr
      (mbi.modsAddr + SIZEOF_MODULE * mbi.mods.length)
  mmap : Apart img.kernelEnd (img.kernelEnd + mbi.bitmapBytes) mbi.mmapAddr
    (mbi.mmapAddr + mbi.mmapLength)

/-- The writes end, stay in the bitmap and concern frames below the top. -/
def WritesContained : Prop :=
  (∃ ws, mbi.pmmWrites img = some ws ∧ ∀ w ∈ ws,
    (∀ x, Touches x w → x < mbi.bitmapBytes) ∧ ∀ f, Indexes f w → f < mbi.totalFrames) ∧
  mbi.BitmapApart img

/-- Frames below the top whose word ends inside the bitmap. -/
def wordFrames : ℕ := min mbi.totalFrames (32 * (mbi.bitmapBytes / 4))

/-- Memory of at least a MiB in which every loop ends below `wordFrames`, and
nothing left behind the image where the bitmap goes. -/
structure BitmapFits : Prop where
  low : 256 ≤ mbi.wordFrames
  regions : ∀ e ∈ mbi.mmap, e.available = true → e.base32 < e.stop32 →
    e.stop32 ≤ 0xFFFFF000 + e.base32 % 4096 ∧
      e.base32 / 4096 + (e.stop32 - e.base32 + 0xFFF) / 0x1000 ≤ mbi.wordFrames
  image : (img.kernelEnd + mbi.bitmapBytes - 1) / 4096 < mbi.wordFrames
  mods : mbi.hasMods = true →
    (∀ mod ∈ mbi.mods, mod.modStart.toNat / 4096 ≤ pred32 mod.modEnd.toNat / 4096 →
      pred32 mod.modEnd.toNat / 4096 < mbi.wordFrames) ∧
    (mbi.modsAddr / 4096 ≤
        pred32 ((mbi.modsAddr + mbi.mods.length * SIZEOF_MODULE) % 2 ^ 32) / 4096 →
      pred32 ((mbi.modsAddr + mbi.mods.length * SIZEOF_MODULE) % 2 ^ 32) / 4096 < mbi.wordFrames)
  apart : mbi.BitmapApart img

/-- A store to a frame's word is in the bitmap if the whole word is. -/
theorem lt_wordFrames_iff {f : ℕ} : f < mbi.wordFrames ↔
    f < mbi.totalFrames ∧ ∀ x, 4 * (f / 32) ≤ x ∧ x < 4 * (f / 32) + 4 → x < mbi.bitmapBytes := by
  rw [wordFrames, lt_min_iff]
  refine and_congr_right fun _ ↦ ⟨fun h x hx ↦ by omega, fun h ↦ ?_⟩
  have := h (4 * (f / 32) + 3) (by omega)
  omega

/-- Every write is one of the bitmap's own if every loop visits such frames only. -/
theorem writes_iff : (∃ ws, mbi.pmmWrites img = some ws ∧ ∀ w ∈ ws,
      (∀ x, Touches x w → x < mbi.bitmapBytes) ∧ ∀ f, Indexes f w → f < mbi.totalFrames) ↔
    (∀ e ∈ mbi.mmap, ¬ e.Wraps) ∧ (∀ e ∈ mbi.mmap, ∀ f, e.Visits f → f < mbi.wordFrames) ∧
      ∀ f, mbi.Reserves img f → f < mbi.wordFrames := by
  obtain ⟨hnone, hmem⟩ := mbi.clearRegions_spec
  constructor
  · rintro ⟨ws, hws, hin⟩
    rw [pmmWrites] at hws
    cases hclear : mbi.clearRegions with
    | none => simp [hclear] at hws
    | some cleared =>
        simp only [hclear, Option.pure_def, Option.bind_eq_bind, Option.bind_some,
          Option.some.injEq] at hws
        refine ⟨fun e he hw ↦ ?_, fun e he f hv ↦ ?_, fun f hf ↦ ?_⟩
        · rw [hnone.mpr ⟨e, he, hw⟩] at hclear
          exact nomatch hclear
        · have hw := hin (.clear f) (by
            rw [← hws, List.mem_append, List.mem_cons]
            exact Or.inl (Or.inr ((hmem _ hclear _).mpr ⟨e, he, f, rfl, hv⟩)))
          exact mbi.lt_wordFrames_iff.mpr ⟨hw.2 f (Or.inr rfl), hw.1⟩
        · have hw := hin (.set f) (by rw [← hws, List.mem_append]; exact Or.inr hf)
          exact mbi.lt_wordFrames_iff.mpr ⟨hw.2 f (Or.inl rfl), hw.1⟩
  · rintro ⟨hends, hcleared, hset⟩
    cases hclear : mbi.clearRegions with
    | none =>
        obtain ⟨e, he, hw⟩ := hnone.mp hclear
        exact absurd hw (hends e he)
    | some cleared =>
        refine ⟨.fill mbi.bitmapBytes :: cleared ++ mbi.setReserved img,
          by simp [pmmWrites, hclear], fun w hw ↦ ?_⟩
        rw [List.mem_append, List.mem_cons] at hw
        obtain (rfl | hw) | hw := hw
        · exact ⟨fun x hx ↦ hx, fun f hf ↦ by simp [Indexes] at hf⟩
        · obtain ⟨e, he, f, rfl, hv⟩ := (hmem _ hclear w).mp hw
          obtain ⟨hlt, hword⟩ := mbi.lt_wordFrames_iff.mp (hcleared e he f hv)
          exact ⟨hword, fun g hg ↦ by simp [Indexes] at hg; omega⟩
        · obtain ⟨f, rfl⟩ := mbi.setReserved_set img hw
          obtain ⟨hlt, hword⟩ := mbi.lt_wordFrames_iff.mp (hset f hw)
          exact ⟨hword, fun g hg ↦ by simp [Indexes] at hg; omega⟩

/-- The writes stay in the bitmap for these layouts and no others. -/
theorem writesContained_iff : mbi.WritesContained img ↔ mbi.BitmapFits img := by
  rw [WritesContained, writes_iff]
  have hstart := img.start_lt
  rw [KERNEL_START] at hstart
  constructor
  · rintro ⟨⟨hends, hcleared, hset⟩, hapart⟩
    have hres := fun f ↦ (mbi.reserves_iff img f).mpr
    refine ⟨hset 255 (hres 255 (Or.inl (by norm_num))), fun e he ha hlt ↦ ?_, ?_,
      fun hm ↦ ⟨fun mod hmod hle ↦ ?_, fun hle ↦ ?_⟩, hapart⟩
    · have hno : e.stop32 ≤ 0xFFFFF000 + e.base32 % 4096 :=
        not_lt.mp fun hw ↦ hends e he ⟨ha, hw⟩
      have hlast := hcleared e he (e.base32 / 4096 + (e.stop32 - e.base32 + 0xFFF) / 0x1000 - 1)
        ⟨ha, by omega, by omega⟩
      exact ⟨hno, by omega⟩
    · exact hset _ (hres _ (Or.inr (Or.inl ⟨by omega, le_rfl⟩)))
    · exact hset _ (hres _ (Or.inr (Or.inr ⟨hm, Or.inl ⟨mod, hmod, hle, le_rfl⟩⟩)))
    · exact hset _ (hres _ (Or.inr (Or.inr ⟨hm, Or.inr ⟨hle, le_rfl⟩⟩)))
  · intro h
    refine ⟨⟨fun e he hw ↦ ?_, fun e he f hv ↦ ?_, fun f hf ↦ ?_⟩, h.apart⟩
    · obtain ⟨ha, hlt⟩ := hw
      have hbase : e.base32 < 2 ^ 32 := Nat.mod_lt _ (by norm_num)
      have := (h.regions e he ha (by omega)).1
      omega
    · obtain ⟨ha, hlo, hhi⟩ := hv
      have := (h.regions e he ha (by omega)).2
      omega
    · have hlow := h.low
      have himage := h.image
      rw [reserves_iff] at hf
      obtain hf | ⟨-, hf⟩ | ⟨hm, ⟨mod, hmod, h₁, h₂⟩ | ⟨h₁, h₂⟩⟩ := hf
      · omega
      · omega
      · exact h₂.trans_lt ((h.mods hm).1 mod hmod (h₁.trans h₂))
      · exact h₂.trans_lt ((h.mods hm).2 (h₁.trans h₂))

def sampleImage : KernelImage := ⟨0x180000, by norm_num [KERNEL_START], by norm_num⟩

/-- Memory up to one page past `0x7FE0000`. -/
def oddMap : MultibootInfo where
  mmapAddr := 0x9000
  mmapLength := 48
  mmap := [⟨0, 0x9FC00, 1⟩, ⟨0x100000, 0x7EE1000, 1⟩]
  hasMods := false
  modsAddr := 0
  mods := []
  mods_le := by norm_num [SIZEOF_MODULE]

/-- The last frame's word ends behind the bitmap. -/
theorem odd_map_escapes : ¬ oddMap.WritesContained sampleImage := by
  rintro ⟨hwrites, -⟩
  obtain ⟨-, hcleared, -⟩ := (oddMap.writes_iff sampleImage).mp hwrites
  have := hcleared ⟨0x100000, 0x7EE1000, 1⟩ (by simp [oddMap]) 0x7FE0 ⟨by decide, by decide, by decide⟩
  revert this
  decide

end MultibootInfo

end EclipseOS
