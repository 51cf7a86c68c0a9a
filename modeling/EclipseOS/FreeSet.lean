import EclipseOS.PmmLoops

/-!
# The free set

The clearing loops see base and length of a region cut to 32 bits and step from
its base, so a ragged end frees a frame of which only a part is there.
-/

namespace EclipseOS

/-- Frame `f` has a byte in `[lo, hi)`. -/
def Meets (f lo hi : ℕ) : Prop := ∃ x, lo ≤ x ∧ x < hi ∧ x / 4096 = f

theorem meets_frames {f lo hi : ℕ} (hhi : hi ≤ 2 ^ 32) (h : Meets f lo hi) :
    lo / 4096 ≤ f ∧ f ≤ MultibootInfo.pred32 (hi % 2 ^ 32) / 4096 := by
  obtain ⟨x, hlo, hlt, rfl⟩ := h
  rw [MultibootInfo.pred32]
  omega

/-- All of frame `f` is in the region. -/
def MultibootMmapEntry.Contains (e : MultibootMmapEntry) (f : ℕ) : Prop :=
  e.available = true ∧ e.addr.toNat ≤ 4096 * f ∧ 4096 * f + 4096 ≤ e.addr.toNat + e.len.toNat

/-- `frame_test`. -/
def KernelImage.frameTest (img : KernelImage) (mem : Image) (f : ℕ) : Bool :=
  img.bitmapWord mem (f / 32) &&& 1#32 <<< (f % 32) != 0#32

namespace BootInfo

open Loop

variable (b : BootInfo) (img : KernelImage)

/-! ## What it should be -/

/-- All of frame `f` is inside available regions. -/
def Whole (f : ℕ) : Prop := ∀ x, x / 4096 = f → ∃ e ∈ b.entries, (b.entryAt e).Covers x

/-- The frames that should be free. -/
def Usable (f : ℕ) : Prop :=
  b.Whole f ∧ ¬ Meets f 0 0x100000 ∧
    ¬ Meets f KERNEL_START (img.kernelEnd + bitmapBytes b.top) ∧
    (b.hasMods = true → (∀ i < b.modsCount,
        ¬ Meets f (b.moduleAt i).modStart.toNat (b.moduleAt i).modEnd.toNat) ∧
      ¬ Meets f b.modsAddr (b.modsAddr + SIZEOF_MODULE * b.modsCount))

/-- `pmm_initialize` returns, and the bitmap in memory is right. -/
def FreeSetRight : Prop :=
  ∃ s, Reaches (b.pmmStep img) b.start s ∧ b.pmmStep img s = none ∧
    (∀ f, f < s.highest / PAGE_SIZE →
      (img.frameTest (b.memory img s) f = false ↔ b.Usable img f)) ∧
    ∀ f, f < 2 ^ 20 → b.Usable img f → f < s.highest / PAGE_SIZE

/-- The third pass sets frame `f`. -/
def Reserves (f : ℕ) : Prop := .set f ∈ b.reserves img

/-- The maps and modules for which the three passes do what they are for: no
clearing loop runs over the top; a frame of which a walked region, with base and
length cut, holds only a part is reserved or made whole by other regions; an
empty module takes no frame away; and what only regions up to or above 4 GiB
provide is still found after the cut. -/
structure MapFits : Prop where
  ends : ∀ e ∈ b.visited, ¬ (b.entryAt e).Wraps
  ragged : ∀ e ∈ b.visited, ∀ f, (b.entryAt e).Visits f → ¬ (b.entryAt e).Contains f →
    f < b.top / PAGE_SIZE → b.Reserves img f ∨ b.Whole f
  empty : b.hasMods = true → ∀ f, f < 2 ^ 20 → b.Usable img f →
    (∀ i < b.modsCount, (b.moduleAt i).modEnd.toNat ≤ (b.moduleAt i).modStart.toNat →
      ¬ ((b.moduleAt i).modStart.toNat / 4096 ≤ f ∧
        f ≤ MultibootInfo.pred32 (b.moduleAt i).modEnd.toNat / 4096)) ∧
    (b.modsCount = 0 →
      ¬ (b.modsAddr / 4096 ≤ f ∧ f ≤ MultibootInfo.pred32 (b.modsAddr % 2 ^ 32) / 4096))
  high : ∀ f, f < 2 ^ 20 → b.Usable img f →
    (∀ e ∈ b.visited, (b.entryAt e).Covers (4096 * f + 4095) →
      2 ^ 32 ≤ (b.entryAt e).addr.toNat + (b.entryAt e).len.toNat) →
    f < b.top / PAGE_SIZE ∧ ∃ e ∈ b.visited, (b.entryAt e).Visits f

/-- The array of modules, if there is one, lies below 4 GiB. -/
def ModsBelow : Prop :=
  b.hasMods = true → b.modsAddr + SIZEOF_MODULE * b.modsCount ≤ 2 ^ 32

instance : Decidable b.ModsBelow := inferInstanceAs (Decidable (_ → _))

/-! ## The writes as a list -/

variable {b}

/-- The lists that `pmmWrites` works on. -/
def info (hmods : b.ModsBelow) : MultibootInfo where
  mmapAddr := b.mem.mmapAddr b.mbi
  mmapLength := b.mem.mmapLength b.mbi
  mmap := b.visited.map b.entryAt
  hasMods := b.hasMods
  modsAddr := if b.hasMods then b.modsAddr else 0
  mods := if b.hasMods then (List.range b.modsCount).map b.moduleAt else []
  mods_le := by
    by_cases hm : b.hasMods = true
    · rw [if_pos hm, if_pos hm, List.length_map, List.length_range]
      exact hmods hm
    · rw [if_neg hm, if_neg hm]
      simp

variable {img} {e f : ℕ} {es : List ℕ}

theorem clearRegions_eq (hends : ∀ e ∈ es, ¬ (b.entryAt e).Wraps) (ws : List BitmapWrite) :
    (es.map b.entryAt).foldlM (fun ws e ↦ e.clearRegion.map (ws ++ ·)) ws =
      some (ws ++ es.flatMap fun e ↦ (b.clears e).map .clear) := by
  induction es generalizing ws with
  | nil => simp
  | cons e es ih =>
      rw [List.forall_mem_cons] at hends
      rw [List.map_cons, List.foldlM_cons, clearRegion_eq hends.1, Option.map_some,
        Option.bind_eq_bind, Option.bind_some, ih hends.2, List.flatMap_cons, List.append_assoc]

theorem highest_info (hmods : b.ModsBelow) : (info hmods).highest = b.top := by
  rw [MultibootInfo.highest, info, List.foldl_map]
  rfl

theorem bitmapBytes_info (hmods : b.ModsBelow) : (info hmods).bitmapBytes = bitmapBytes b.top := by
  rw [MultibootInfo.bitmapBytes, MultibootInfo.totalFrames, highest_info]
  rfl

theorem setReserved_info (hmods : b.ModsBelow) :
    (info hmods).setReserved img = b.reserves img := by
  simp only [MultibootInfo.setReserved, reserves, kernelFrames, lastKernel, bitmapBytes_info hmods]
  congr 1
  simp only [info]
  by_cases hm : b.hasMods = true
  · simp only [if_pos hm, List.length_map, List.length_range, List.flatMap_map]
    rfl
  · simp only [if_neg hm]

/-- The machine stops just where `pmmWrites` gives a list, and has made its writes. -/
theorem stops_iff_pmmWrites (hmap : b.MapKept img) (hkept : b.ModsKept img) (hmods : b.ModsBelow)
    (ws : List BitmapWrite) :
    (∃ s, Reaches (b.pmmStep img) b.start s ∧ b.pmmStep img s = none ∧ s.writes = ws ∧
      s.highest = b.top) ↔ (info hmods).pmmWrites img = some ws := by
  rw [MultibootInfo.pmmWrites]
  by_cases hends : ∀ e ∈ b.visited, ¬ (b.entryAt e).Wraps
  · have hcleared : (info hmods).clearRegions = some _ := clearRegions_eq hends []
    have hlast := reaches_last hmap hkept hends
    have hwrites : (b.last img).writes = .fill (info hmods).bitmapBytes ::
        ([] ++ b.visited.flatMap fun e ↦ (b.clears e).map .clear) ++ b.reserves img := by
      rw [bitmapBytes_info]
      rfl
    rw [hcleared, setReserved_info, Option.bind_eq_bind, Option.bind_some, Option.pure_def, ← hwrites,
      Option.some.injEq]
    constructor
    · rintro ⟨s, hs, hstop, rfl, -⟩
      rw [(hlast.to_last rfl hs).eq_of_none hstop]
    · intro h
      exact ⟨b.last img, hlast, rfl, h, rfl⟩
  · have hnone : (info hmods).clearRegions = none := by
      push Not at hends
      obtain ⟨e, he, hwraps⟩ := hends
      exact (info hmods).clearRegions_spec.1.mpr ⟨_, List.mem_map.mpr ⟨e, he, rfl⟩, hwraps⟩
    rw [hnone]
    constructor
    · rintro ⟨s, hs, hstop, -⟩
      exact absurd ((ends_iff hmap).mp (hs.ends_iff.mpr ⟨1, hstop⟩)) hends
    · intro h
      cases h

/-! ## The bits -/

/-- A frame below the top is free if it was cleared and not set again. -/
theorem frameTest_last (hmods : b.ModsBelow) {ws : List BitmapWrite}
    (hws : (info hmods).pmmWrites img = some ws) (hf : f < b.top / PAGE_SIZE) :
    img.frameTest (ws.foldl img.store b.mem) f = false ↔
      (∃ e ∈ b.visited, (b.entryAt e).Visits f) ∧ ¬ b.Reserves img f := by
  set m : Machine := ⟨fun _ _ ↦ 0, 0, img.bitmapWord b.mem, 0, 0, [], by norm_num⟩ with hm
  obtain ⟨m', hrun, hwords⟩ : ∃ m', m.pmmInitialize (info hmods) img = some m' ∧
      m'.frameBitmap = img.bitmapWord (ws.foldl img.store b.mem) := by
    have hbitmap : m.frameBitmap = img.bitmapWord b.mem := by rw [hm]
    have hwords := KernelImage.bitmapWord_foldl hbitmap ws
    rw [Machine.pmmInitialize, hws]
    exact ⟨_, rfl, hwords⟩
  have hspec := (Machine.pmmInitialize_spec m hrun).2 f
    (by rwa [MultibootInfo.totalFrames, highest_info])
  have htest : m'.frameTest f = img.frameTest (ws.foldl img.store b.mem) f := by
    rw [Machine.frameTest, KernelImage.frameTest, hwords]
  rw [htest] at hspec
  rw [hspec, Reserves, MultibootInfo.Reserves, setReserved_info]
  simp only [info, List.mem_map, exists_exists_and_eq_and]

theorem reserves_iff (hmods : b.ModsBelow) (f : ℕ) : b.Reserves img f ↔
    f < 256 ∨ (256 ≤ f ∧ f ≤ (img.kernelEnd + bitmapBytes b.top - 1) / 4096) ∨
      (b.hasMods = true ∧ ((∃ i < b.modsCount, (b.moduleAt i).modStart.toNat / 4096 ≤ f ∧
          f ≤ MultibootInfo.pred32 (b.moduleAt i).modEnd.toNat / 4096) ∨
        (b.modsAddr / 4096 ≤ f ∧ f ≤ MultibootInfo.pred32
          ((b.modsAddr + b.modsCount * SIZEOF_MODULE) % 2 ^ 32) / 4096))) := by
  have h := (info hmods).reserves_iff img f
  rw [MultibootInfo.Reserves, setReserved_info, bitmapBytes_info] at h
  rw [Reserves, h]
  by_cases hm : b.hasMods = true
  · simp only [info, hm, if_true, List.mem_map, List.mem_range, List.length_map, List.length_range,
      exists_exists_and_eq_and]
  · simp [info, hm]

/-! ## The regions -/

theorem le_top (he : e ∈ b.visited) (ha : (b.entryAt e).available = true) :
    (b.entryAt e).top ≤ b.top := by
  have hmono : ∀ (l : List ℕ) (h : ℕ), h ≤ l.foldl b.raise h := by
    intro l
    induction l with
    | nil => exact fun h ↦ le_rfl
    | cons e l ih =>
        intro h
        refine le_trans ?_ (ih _)
        rw [raise]
        split <;> omega
  have h : ∀ (l : List ℕ) (h : ℕ), e ∈ l → (b.entryAt e).top ≤ l.foldl b.raise h := by
    intro l
    induction l with
    | nil => exact fun h hin ↦ nomatch hin
    | cons e' l ih =>
        intro h hin
        obtain rfl | hin := List.mem_cons.mp hin
        · refine le_trans ?_ (hmono l _)
          rw [raise]
          split
          · exact le_rfl
          · next hno => exact not_lt.mp fun hlt ↦ hno ⟨ha, hlt⟩
        · exact ih _ hin
  exact h _ 0 he

/-- A region that ends below 4 GiB is not cut. -/
theorem visits_of_covers (he : e ∈ b.visited) (hcov : (b.entryAt e).Covers (4096 * f + 4095))
    (hlt : (b.entryAt e).addr.toNat + (b.entryAt e).len.toNat < 2 ^ 32) :
    (b.entryAt e).Visits f ∧ f < b.top / PAGE_SIZE := by
  obtain ⟨ha, hlo, hhi⟩ := hcov
  have htop : (b.entryAt e).top = (b.entryAt e).addr.toNat + (b.entryAt e).len.toNat :=
    Nat.mod_eq_of_lt hlt
  have hle := le_top he ha
  have hbase : (b.entryAt e).base32 = (b.entryAt e).addr.toNat := Nat.mod_eq_of_lt (by omega)
  have hstop : (b.entryAt e).stop32 = (b.entryAt e).addr.toNat + (b.entryAt e).len.toNat := by
    rw [MultibootMmapEntry.stop32, hbase,
      Nat.mod_eq_of_lt (show (b.entryAt e).len.toNat < 2 ^ 32 by omega), Nat.mod_eq_of_lt hlt]
  refine ⟨⟨ha, by omega, by omega⟩, ?_⟩
  rw [PAGE_SIZE]
  omega

theorem whole_of_contains (he : e ∈ b.visited) (h : (b.entryAt e).Contains f) : b.Whole f := by
  obtain ⟨ha, hlo, hhi⟩ := h
  rintro x rfl
  exact ⟨e, b.visited_subset he, ha, by omega, by omega⟩

theorem bitmapBytes_le (hmods : b.ModsBelow) : bitmapBytes b.top ≤ 2 ^ 17 := by
  rw [← bitmapBytes_info hmods]
  exact (info hmods).bitmapBytes_le

/-- What is not reserved meets nothing that must be kept. -/
theorem usable_of_whole (hmods : b.ModsBelow) (hwhole : b.Whole f) (hres : ¬ b.Reserves img f) :
    b.Usable img f := by
  have hend := img.end_le
  have hbytes := bitmapBytes_le hmods
  rw [reserves_iff hmods] at hres
  push Not at hres
  obtain ⟨hlow, hkernel, hmod⟩ := hres
  refine ⟨hwhole, ?_, ?_, fun hm ↦ ⟨fun i hi hmeets ↦ ?_, fun hmeets ↦ ?_⟩⟩
  · rintro ⟨x, -, hx, rfl⟩
    omega
  · rintro ⟨x, hlo, hx, rfl⟩
    have := hkernel hlow
    omega
  · obtain ⟨h₁, h₂⟩ := meets_frames (Nat.le_of_lt (b.moduleAt i).modEnd.isLt) hmeets
    rw [Nat.mod_eq_of_lt (b.moduleAt i).modEnd.isLt] at h₂
    have := (hmod hm).1 i hi h₁
    omega
  · rw [Nat.mul_comm] at hmeets
    obtain ⟨h₁, h₂⟩ := meets_frames (by rw [Nat.mul_comm]; exact hmods hm) hmeets
    have := (hmod hm).2 h₁
    omega

/-- A usable frame is reserved by an empty module or an empty array only. -/
theorem not_reserves_of_usable (hmods : b.ModsBelow) (hu : b.Usable img f)
    (hempty : b.hasMods = true →
      (∀ i < b.modsCount, (b.moduleAt i).modEnd.toNat ≤ (b.moduleAt i).modStart.toNat →
        ¬ ((b.moduleAt i).modStart.toNat / 4096 ≤ f ∧
          f ≤ MultibootInfo.pred32 (b.moduleAt i).modEnd.toNat / 4096)) ∧
      (b.modsCount = 0 →
        ¬ (b.modsAddr / 4096 ≤ f ∧ f ≤ MultibootInfo.pred32 (b.modsAddr % 2 ^ 32) / 4096))) :
    ¬ b.Reserves img f := by
  obtain ⟨-, hlow, hkernel, hmod⟩ := hu
  have hend := img.end_le
  have hstart := img.start_lt
  have hbytes := bitmapBytes_le hmods
  rw [KERNEL_START] at hstart hkernel
  rw [reserves_iff hmods]
  rintro (hf | ⟨h₁, h₂⟩ | ⟨hm, ⟨i, hi, h₁, h₂⟩ | ⟨h₁, h₂⟩⟩)
  · exact hlow ⟨4096 * f, by omega, by omega, by omega⟩
  · exact hkernel ⟨4096 * f, by omega, by omega, by omega⟩
  · by_cases hlt : (b.moduleAt i).modStart.toNat < (b.moduleAt i).modEnd.toNat
    · refine (hmod hm).1 i hi
        ⟨max (b.moduleAt i).modStart.toNat (4096 * f), by omega, ?_, by omega⟩
      have := (b.moduleAt i).modEnd.isLt
      rw [MultibootInfo.pred32] at h₂
      omega
    · exact (hempty hm).1 i hi (by omega) ⟨h₁, h₂⟩
  · have hle := hmods hm
    by_cases hnil : b.modsCount = 0
    · rw [hnil, Nat.zero_mul, Nat.add_zero] at h₂
      exact (hempty hm).2 hnil ⟨h₁, h₂⟩
    · refine (hmod hm).2 ⟨max b.modsAddr (4096 * f), by omega, ?_, by omega⟩
      rw [SIZEOF_MODULE] at hle h₂ ⊢
      rw [MultibootInfo.pred32] at h₂
      omega

/-- Where its own writes leave alone what `pmm_initialize` still has to read, the free
set is right for these maps and no others. -/
theorem freeSetRight_iff (hmap : b.MapKept img) (hkept : b.ModsKept img) (hmods : b.ModsBelow) :
    b.FreeSetRight img ↔ b.MapFits img := by
  constructor
  · rintro ⟨s, hs, hstop, hfree, hbelow⟩
    have hends := (ends_iff hmap).mp (hs.ends_iff.mpr ⟨1, hstop⟩)
    obtain rfl := ((reaches_last hmap hkept hends).to_last rfl hs).eq_of_none hstop
    have hws := (stops_iff_pmmWrites hmap hkept hmods (b.last img).writes).mp
      ⟨_, hs, hstop, rfl, rfl⟩
    have hspec := fun f ↦ frameTest_last (f := f) hmods hws
    refine ⟨hends, fun e he f hv _ hf ↦ or_iff_not_imp_left.mpr fun hres ↦ ?_,
      fun hm f hf hu ↦ ⟨fun i hi _ hin ↦ ?_, fun hnil hin ↦ ?_⟩, fun f hf hu _ ↦ ?_⟩
    · exact ((hfree f hf).mp ((hspec f hf).mpr ⟨⟨e, he, hv⟩, hres⟩)).1
    · have hlt := hbelow f hf hu
      refine ((hspec f hlt).mp ((hfree f hlt).mpr hu)).2 ?_
      rw [reserves_iff hmods]
      exact Or.inr (Or.inr ⟨hm, Or.inl ⟨i, hi, hin⟩⟩)
    · have hlt := hbelow f hf hu
      refine ((hspec f hlt).mp ((hfree f hlt).mpr hu)).2 ?_
      rw [reserves_iff hmods]
      exact Or.inr (Or.inr ⟨hm, Or.inr (by simpa [hnil] using hin)⟩)
    · have hlt := hbelow f hf hu
      exact ⟨hlt, ((hspec f hlt).mp ((hfree f hlt).mpr hu)).1⟩
  · intro h
    have hs := reaches_last hmap hkept h.ends
    have hws := (stops_iff_pmmWrites hmap hkept hmods (b.last img).writes).mp ⟨_, hs, rfl, rfl, rfl⟩
    have hspec := fun f ↦ frameTest_last (f := f) hmods hws
    have hlt20 : b.top / PAGE_SIZE < 2 ^ 20 := by
      rw [← highest_info hmods]
      exact Nat.div_lt_of_lt_mul (info hmods).highest_lt
    have hreach : ∀ f, f < 2 ^ 20 → b.Usable img f →
        f < b.top / PAGE_SIZE ∧ ∃ e ∈ b.visited, (b.entryAt e).Visits f := by
      intro f hf hu
      by_cases hcut : ∀ e ∈ b.visited, (b.entryAt e).Covers (4096 * f + 4095) →
          2 ^ 32 ≤ (b.entryAt e).addr.toNat + (b.entryAt e).len.toNat
      · exact h.high f hf hu hcut
      · push Not at hcut
        obtain ⟨e, he, hcov, hend⟩ := hcut
        obtain ⟨hv, hlt⟩ := visits_of_covers he hcov hend
        exact ⟨hlt, e, he, hv⟩
    refine ⟨b.last img, hs, rfl, fun f hf ↦ (hspec f hf).trans ?_, fun f hf hu ↦ (hreach f hf hu).1⟩
    have hf' : f < b.top / PAGE_SIZE := hf
    constructor
    · rintro ⟨⟨e, he, hv⟩, hres⟩
      refine usable_of_whole hmods ?_ hres
      by_cases hin : (b.entryAt e).Contains f
      · exact whole_of_contains he hin
      · exact (h.ragged e he f hv hin hf').resolve_left hres
    · intro hu
      exact ⟨(hreach f (hf'.trans hlt20) hu).2, not_reserves_of_usable hmods hu
        fun hm ↦ h.empty hm f (hf'.trans hlt20) hu⟩

/-- Without modules nothing of them is read. -/
theorem modsKept_of_below (hmbi : b.mbi + 52 ≤ img.kernelEnd) (hm : b.hasMods = false) :
    b.ModsKept img where
  flags := KernelImage.spares_of_below (by omega) _
  fields h := by simp [hm] at h
  modules h := by simp [hm] at h

end BootInfo

namespace Sample

open BootInfo

theorem smallMap_free : smallMap.FreeSetRight MultibootInfo.sampleImage := by
  refine (freeSetRight_iff smallMap_kept (modsKept_of_below (by decide) (by decide))
    (by decide)).mpr ⟨fun e he ↦ ?_, fun e he f hv hin _ ↦ ?_, fun hm ↦ absurd hm (by decide),
      fun f _ hu hcut ↦ ?_⟩
  · obtain rfl := List.mem_singleton.mp (smallMap.visited_subset he)
    exact fun hwraps ↦ absurd hwraps.2 (by decide)
  · obtain rfl := List.mem_singleton.mp (smallMap.visited_subset he)
    obtain ⟨ha, hlo, hhi⟩ := hv
    have hbase : (smallMap.entryAt 0x9000).base32 = 0x100000 := by decide
    have hstop : (smallMap.entryAt 0x9000).stop32 = 0x800000 := by decide
    have haddr : (smallMap.entryAt 0x9000).addr.toNat = 0x100000 := by decide
    have hlen : (smallMap.entryAt 0x9000).len.toNat = 0x700000 := by decide
    rw [hbase] at hlo
    rw [hbase, hstop] at hhi
    exact absurd ⟨ha, by omega, by omega⟩ hin
  · obtain ⟨e, he, hcov⟩ := hu.1 (4096 * f + 4095) (by omega)
    obtain rfl := List.mem_singleton.mp he
    exact absurd (hcut 0x9000 (by decide) hcov) (by decide)

/-- Two regions, of which the first ends half way through frame `0x800`. -/
def raggedEntries : List UInt8 :=
  [20, 0, 0, 0, 0, 0, 0x10, 0, 0, 0, 0, 0, 0, 8, 0x70, 0, 0, 0, 0, 0, 1, 0, 0, 0,
    20, 0, 0, 0, 0, 0, 0x90, 0, 0, 0, 0, 0, 0, 0, 0x10, 0, 0, 0, 0, 0, 1, 0, 0, 0]

def raggedMap : BootInfo where
  mem := bootMemory raggedEntries
  mbi := 0x8000
  entries := [0x9000, 0x9018]
  laid := .cons (by decide) (by decide) (.cons (by decide) (by decide) .nil)
  below := by decide

/-- A region whose last frame is only half there: the frame comes out free. -/
theorem raggedMap_wrong : ¬ raggedMap.FreeSetRight MultibootInfo.sampleImage := by
  intro hright
  have hfit := (freeSetRight_iff (mapKept_of_below (by decide) (by decide))
    (modsKept_of_below (by decide) (by decide)) (by decide)).mp hright
  have hvisit : (raggedMap.entryAt 0x9000).Visits 0x800 := ⟨by decide, by decide, by decide⟩
  have hin : ¬ (raggedMap.entryAt 0x9000).Contains 0x800 := fun h ↦ absurd h.2.2 (by decide)
  obtain hres | hwhole := hfit.ragged 0x9000 (by decide) 0x800 hvisit hin (by decide)
  · rw [reserves_iff (by decide)] at hres
    revert hres
    decide
  · obtain ⟨e, he, -, hlo, hhi⟩ := hwhole 0x800800 (by norm_num)
    simp only [raggedMap, List.mem_cons, List.not_mem_nil, or_false] at he
    obtain rfl | rfl := he
    · exact absurd hhi (by decide)
    · exact absurd hlo (by decide)

end Sample

end EclipseOS
