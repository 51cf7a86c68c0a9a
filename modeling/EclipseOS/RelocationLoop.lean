import EclipseOS.Lib.Counter
import EclipseOS.Lib.Loops
import EclipseOS.LoaderSafety

/-!
# The relocation loop

`apply_relocations` goes through its table with the step and the limit that the
dynamic section names.  The offset is a word, so it takes the multiples of a
power of two in some order and comes back to zero unless one of them reaches
the limit.
-/

namespace EclipseOS

open LittleEndian

namespace Machine

variable {m m' : Machine} {base off fuel k n : ℕ} {info : DynInfo} {data : Image}

/-- One turn of the loop, or `none` where it ends: at the limit, or in a record
that cannot be accessed. -/
def relocateStep (base : ℕ) (info : DynInfo) (s : Machine × ℕ) : Option (Machine × ℕ) :=
  if s.2 < info.relsz then (s.1.relocateRecord base (info.rel + s.2)).map fun m ↦
    (m, (s.2 + info.relent) % 2 ^ 32)
  else none

/-- The loop returns what it has when it is past the limit. -/
theorem relocate_eq_some_iff : m.relocate base info fuel off = some m' ↔
    ∃ n < fuel, ∃ off', Loop.turns (relocateStep base info) (m, off) n = some (m', off') ∧
      info.relsz ≤ off' := by
  induction fuel generalizing m off with
  | zero => simp [relocate]
  | succ fuel ih =>
      rw [relocate_succ]
      constructor
      · intro hrun
        split at hrun
        · next hlt =>
          rw [Option.bind_eq_some_iff] at hrun
          obtain ⟨m₁, hrecord, hrun⟩ := hrun
          obtain ⟨n, hn, off', hturns, hpast⟩ := ih.mp hrun
          refine ⟨n + 1, by omega, off', ?_, hpast⟩
          rw [Loop.turns_succ', relocateStep, if_pos hlt, hrecord]
          exact hturns
        · next hlt =>
          obtain rfl := Option.some.inj hrun
          exact ⟨0, by omega, off, rfl, not_lt.mp hlt⟩
      · rintro ⟨n, hn, off', hturns, hpast⟩
        cases n with
        | zero =>
            obtain ⟨rfl, rfl⟩ := Prod.mk.inj (Option.some.inj hturns)
            rw [if_neg (not_lt.mpr hpast)]
        | succ n =>
            rw [Loop.turns_succ', Option.bind_eq_some_iff] at hturns
            obtain ⟨s, hstep, hturns⟩ := hturns
            rw [relocateStep] at hstep
            split at hstep
            · next hlt =>
              obtain ⟨m₁, hrecord, rfl⟩ := Option.map_eq_some_iff.mp hstep
              rw [if_pos hlt, hrecord, Option.bind_some]
              exact ih.mpr ⟨n, by omega, off', hturns, hpast⟩
            · cases hstep

/-- What the dynamic section says, if there is one. -/
def relocationInfo (m : Machine) (data : Image) (base : ℕ) : Option DynInfo :=
  (dynamicHeader data).bind fun i ↦
    let dyn := (base + data.pVaddr i) % 2 ^ 32
    if dyn = 0 then none else m.scanDynamic base ⟨0, 0, REL_SIZE⟩ (2 ^ 32 + 1) dyn

theorem applyRelocations_of_info (h : m.relocationInfo data base = some info) :
    m.applyRelocations data base = m.relocate base info (2 ^ 32 + 1) 0 := by
  obtain ⟨i, hdyn, hscan⟩ := Option.bind_eq_some_iff.mp h
  rw [applyRelocations, hdyn]
  dsimp only at hscan ⊢
  split at hscan
  · cases hscan
  · next hzero =>
    rw [if_neg hzero, hscan]
    rfl

/-- The loop ends, and works on no record twice. -/
structure RelocationSound (m : Machine) (base : ℕ) (info : DynInfo) : Prop where
  ends : Loop.Ends (relocateStep base info) (m, 0)
  apart : ∀ k l s t, k < l → Loop.turns (relocateStep base info) (m, 0) k = some s →
    Loop.turns (relocateStep base info) (m, 0) l = some t → t.2 < info.relsz → s.2 ≠ t.2

/-- The first `n` offsets. -/
def offsets (info : DynInfo) (n : ℕ) : List ℕ :=
  (List.range n).map fun k ↦ k * info.relent % 2 ^ 32

def relocateRecords (m : Machine) (base : ℕ) (info : DynInfo) (l : List ℕ) : Option Machine :=
  l.foldlM (fun m off ↦ relocateRecord m base (info.rel + off)) m

/-- One of the offsets is past the limit, or one of the records there cannot be
accessed. -/
def LimitReached (m : Machine) (base : ℕ) (info : DynInfo) : Prop :=
  info.relsz ≤ 2 ^ 32 - info.relent.gcd (2 ^ 32) ∨
    m.relocateRecords base info (offsets info (Counter.period info.relent (2 ^ 32))) = none

theorem turns_off {s : Machine × ℕ} (h : Loop.turns (relocateStep base info) (m, 0) n = some s) :
    s.2 = n * info.relent % 2 ^ 32 := by
  induction n generalizing s with
  | zero =>
      obtain rfl := Option.some.inj h
      rw [Nat.zero_mul, Nat.zero_mod]
  | succ n ih =>
      rw [Loop.turns_succ, Option.bind_eq_some_iff] at h
      obtain ⟨t, hturns, hstep⟩ := h
      rw [relocateStep] at hstep
      split at hstep
      · obtain ⟨m₁, -, rfl⟩ := Option.map_eq_some_iff.mp hstep
        rw [ih hturns, Nat.succ_mul, Nat.mod_add_mod]
      · exact nomatch hstep

theorem relocateRecords_succ : m.relocateRecords base info (offsets info (n + 1)) =
    (m.relocateRecords base info (offsets info n)).bind fun m ↦
      m.relocateRecord base (info.rel + n * info.relent % 2 ^ 32) := by
  rw [relocateRecords, offsets, List.range_succ, List.map_append, List.foldlM_append]
  simp only [List.map_cons, List.map_nil, List.foldlM_cons, List.foldlM_nil, bind_pure]
  rfl

/-- As long as the counter is below the limit, the turns are the records. -/
theorem turns_eq (hlt : ∀ k < n, k * info.relent % 2 ^ 32 < info.relsz) :
    Loop.turns (relocateStep base info) (m, 0) n =
      (m.relocateRecords base info (offsets info n)).map fun m ↦ (m, n * info.relent % 2 ^ 32) := by
  induction n with
  | zero => simp [offsets, relocateRecords]
  | succ n ih =>
      rw [Loop.turns_succ, ih fun k hk ↦ hlt k (by omega), relocateRecords_succ]
      cases m.relocateRecords base info (offsets info n) with
      | none => rfl
      | some m₁ =>
          rw [Option.map_some, Option.bind_some, Option.bind_some, relocateStep,
            if_pos (hlt n (by omega))]
          dsimp only
          rw [Nat.mod_add_mod, ← Nat.succ_mul]

/-- The loop is sound just when its counter meets the limit in its first round. -/
theorem relocationSound_iff : m.RelocationSound base info ↔ m.LimitReached base info := by
  have hword : 0 < 2 ^ 32 := by norm_num
  constructor
  · intro hsound
    by_contra hno
    rw [LimitReached, not_or, not_le] at hno
    obtain ⟨hlimit, hround⟩ := hno
    obtain ⟨m', hfold⟩ := Option.ne_none_iff_exists'.mp hround
    have hturns : Loop.turns (relocateStep base info) (m, 0)
        (Counter.period info.relent (2 ^ 32)) = some (m', 0) := by
      rw [turns_eq fun k _ ↦ (Counter.le_last hword).trans_lt hlimit, hfold, Option.map_some,
        Counter.back]
    apply hsound.apart 0 _ (m, 0) (m', 0) (Counter.period_pos hword) rfl hturns _ rfl
    exact (Nat.zero_le _).trans_lt hlimit
  · intro hreached
    have hends : ∃ n ≤ Counter.period info.relent (2 ^ 32), ∀ s,
        Loop.turns (relocateStep base info) (m, 0) n = some s → n < Counter.period info.relent (2 ^ 32) ∧
          info.relsz ≤ s.2 := by
      by_cases hlimit : info.relsz ≤ 2 ^ 32 - info.relent.gcd (2 ^ 32)
      · obtain ⟨n, hn, hlast⟩ := Counter.last (e := info.relent) hword
        refine ⟨n, hn.le, fun s hs ↦ ⟨hn, ?_⟩⟩
        rwa [turns_off hs, hlast]
      · have hround := hreached.resolve_left hlimit
        refine ⟨_, le_rfl, fun s hs ↦ ?_⟩
        rw [turns_eq fun k _ ↦ (Counter.le_last hword).trans_lt (not_le.mp hlimit), hround] at hs
        exact nomatch hs
    obtain ⟨n, hn, hlast⟩ := hends
    have hstop : Loop.turns (relocateStep base info) (m, 0) (n + 1) = none := by
      rw [Loop.turns_succ]
      cases hturns : Loop.turns (relocateStep base info) (m, 0) n with
      | none => rfl
      | some s => rw [Option.bind_some, relocateStep, if_neg (not_lt.mpr (hlast s hturns).2)]
    refine ⟨⟨n + 1, hstop⟩, fun k l s t hkl hk hl hbelow heq ↦ ?_⟩
    have hln : l < Counter.period info.relent (2 ^ 32) := by
      by_contra hge
      obtain ⟨u, hu⟩ := Loop.turns_le hl (show n ≤ l by omega)
      obtain ⟨hlt, hpast⟩ := hlast u hu
      obtain ⟨v, hv⟩ := Loop.turns_le hl (show n + 1 ≤ l by omega)
      rw [hstop] at hv
      exact nomatch hv
    rw [turns_off hk, turns_off hl] at heq
    exact Counter.apart hword hkl hln heq

/-- For every image, whatever its dynamic section says. -/
theorem relocation_loop_iff (m : Machine) (data : Image) (base : ℕ) :
    (∀ info, m.relocationInfo data base = some info → m.RelocationSound base info) ↔
      ∀ info, m.relocationInfo data base = some info → m.LimitReached base info :=
  forall₂_congr fun _ _ ↦ relocationSound_iff

/-! ## Steps of zero -/

theorem endless_confined : Sample.endlessProgram.Confined 0 := by
  have hphnum : Sample.endlessProgram.ePhnum = 2 := rfl
  have hother : Sample.endlessProgram.pType 1 ≠ PT_LOAD := by decide
  have hstart : Sample.endlessProgram.segStart 0 0 = 0x400000 := rfl
  have hend : Sample.endlessProgram.segEnd 0 0 = 0x401000 := rfl
  have hsize : Sample.endlessProgram.pFilesz 0 = 40 := rfl
  have hdst : (0 + Sample.endlessProgram.pVaddr 0) % 2 ^ 32 = 0x400000 := rfl
  intro i hi hload
  obtain rfl : i = 0 := by
    by_contra hne
    obtain rfl : i = 1 := by omega
    exact hother hload
  rw [hstart, hend, hsize, hdst]
  refine ⟨fun _ ↦ by norm_num, fun k hk ↦ ⟨0, by norm_num, by rfl, ?_, ?_⟩⟩
  · rw [hstart]
    omega
  · rw [hend]
    omega

/-- The record at offset 0 is of no known kind, and the next one is at offset 0. -/
theorem relocation_endless : ∃ heap m s info,
    ((Sample.machine 300).pagingInitialize (1 * PAGE_SIZE) (2 * PAGE_SIZE)).kheapInitialize
      KERNEL_HEAP_BASE KERNEL_HEAP_SIZE = some (heap, m) ∧
      Sample.endlessProgram.headerBase 156 = some 0 ∧
      (List.range Sample.endlessProgram.ePhnum).foldlM (loadSegment Sample.endlessProgram 0)
        ⟨m, 0, false⟩ = some s ∧ s.outOfMemory = false ∧
      s.machine.relocationInfo Sample.endlessProgram 0 = some info ∧
      ¬ s.machine.RelocationSound 0 info ∧ m.elfLoad Sample.endlessProgram 156 = none := by
  obtain ⟨heap, m, K, hboot, h, hs, hempty, hfree⟩ := booted_sample
  have hroom : m.need (Sample.endlessProgram.pages 0 Sample.endlessProgram.ePhnum) ≤
      m.free.card := by
    have hle := m.need_le (Sample.endlessProgram.pages 0 Sample.endlessProgram.ePhnum)
    have hlen : (Sample.endlessProgram.pages 0 Sample.endlessProgram.ePhnum).length = 1 := by
      decide +kernel
    omega
  obtain ⟨-, m₁, hload, -, hview, -⟩ | ⟨hout, -⟩ :=
    loadSegments_view h hs (.of_confined endless_confined m)
  · have hword : ∀ {a w : ℕ}, read32 (Sample.endlessProgram.loaded 0) a = some w →
        m₁.load32 a = some w := fun hr ↦ load32_of_extends m₁.view_extends (by rwa [hview, hempty])
    have htag₀ : m₁.load32 0x400000 = some DT_RELSZ := hword (by decide +kernel)
    have hval₀ : m₁.load32 0x400004 = some 8 := hword (by decide +kernel)
    have htag₁ : m₁.load32 0x400008 = some DT_RELENT := hword (by decide +kernel)
    have hval₁ : m₁.load32 0x40000C = some 0 := hword (by decide +kernel)
    have htag₂ : m₁.load32 0x400010 = some DT_REL := hword (by decide +kernel)
    have hval₂ : m₁.load32 0x400014 = some 0x400020 := hword (by decide +kernel)
    have htag₃ : m₁.load32 0x400018 = some DT_NULL := hword (by decide +kernel)
    have hkind : m₁.load32 0x400024 = some 0 := hword (by decide +kernel)
    have hscan : ∀ fuel, m₁.scanDynamic 0 ⟨0, 0, REL_SIZE⟩ (fuel + 4) 0x400000 =
        some ⟨0x400020, 8, 0⟩ := by
      intro fuel
      simp [scanDynamic, dynEntry, htag₀, hval₀, htag₁, hval₁, htag₂, hval₂, htag₃, DT_NULL, DT_REL,
        DT_RELSZ, DT_RELENT, DYN_SIZE]
    have hinfo : m₁.relocationInfo Sample.endlessProgram 0 = some ⟨0x400020, 8, 0⟩ := by
      have hdyn : dynamicHeader Sample.endlessProgram = some 1 := by decide +kernel
      have haddr : (0 + Sample.endlessProgram.pVaddr 1) % 2 ^ 32 = 0x400000 := by decide +kernel
      rw [relocationInfo, hdyn, Option.bind_some]
      dsimp only
      rw [haddr, if_neg (by norm_num), show 2 ^ 32 + 1 = (2 ^ 32 - 3) + 4 by norm_num, hscan]
    have hturns : ∀ n, Loop.turns (relocateStep 0 ⟨0x400020, 8, 0⟩) (m₁, 0) n = some (m₁, 0) := by
      intro n
      induction n with
      | zero => rfl
      | succ n ih =>
          have hrecord : m₁.relocateRecord 0 0x400020 = some m₁ := by
            rw [relocateRecord, hkind]
            rfl
          rw [Loop.turns_succ, ih, Option.bind_some, relocateStep, if_pos (by norm_num)]
          dsimp only
          rw [Nat.add_zero, hrecord]
          rfl
    refine ⟨heap, m, _, ⟨0x400020, 8, 0⟩, hboot, by decide +kernel, hload, rfl, hinfo, fun hsound ↦ ?_,
      ?_⟩
    · obtain ⟨n, hn⟩ := hsound.ends
      rw [hturns] at hn
      cases hn
    · rw [elfLoad_relocates (by decide +kernel) hload, applyRelocations_of_info hinfo,
        Option.map_eq_none_iff]
      by_contra hsome
      obtain ⟨m', hrun⟩ := Option.ne_none_iff_exists'.mp hsome
      obtain ⟨n, -, off', hn, hpast⟩ := relocate_eq_some_iff.mp hrun
      rw [hturns, Option.some.injEq, Prod.mk.injEq] at hn
      rw [← hn.2] at hpast
      exact absurd hpast (by norm_num)
  · exact absurd (grants_of_need hroom) hout

end Machine

end EclipseOS
