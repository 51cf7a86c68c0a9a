import EclipseOS.Libc.HeapIntegrity
import EclipseOS.Libc.HeapResults

/-!
# The alignment of allocations

Sizes are rounded to 8, but a header takes 12 bytes: the first block of a program
is at a page boundary, so its payload is not.
-/

namespace EclipseOS

namespace Libc

/-- A call of the heap, with the state before it. -/
structure Call where
  before : Heap
  op : HeapOp
  result : ℕ

namespace HeapOp

/-- The pointer that is given back is `NULL` or was returned before. -/
def Known (calls : List Call) : HeapOp → Prop
  | malloc _ => True
  | calloc _ _ => True
  | realloc ptr _ => ptr = 0 ∨ ptr ∈ calls.map Call.result
  | free ptr => ptr = 0 ∨ ptr ∈ calls.map Call.result

/-- Nothing is asked for, or `sbrk` gives nothing. -/
def Starves (h : Heap) : HeapOp → Prop
  | malloc size => size = 0 ∨ h.Starves (roundUp size)
  | calloc n size => Overflows n size ∨ n * size % 2 ^ 32 = 0 ∨ h.Starves (roundUp (n * size % 2 ^ 32))
  | realloc ptr size => ptr = 0 ∧ (size = 0 ∨ h.Starves (roundUp size))
  | free ptr => ptr = 0

end HeapOp

/-- A program that calls the heap with any sizes, and writes into memory between the
calls; the last call comes first. -/
inductive HeapCalls (h₀ : Heap) : Heap → List Call → Prop
  | start : HeapCalls h₀ h₀ []
  | call {h h' : Heap} {calls : List Call} {r : ℕ} (o : HeapOp) (hcalls : HeapCalls h₀ h calls)
      (hknown : o.Known calls) (hrun : o.run h = some (r, h')) :
      HeapCalls h₀ h' (⟨h, o, r⟩ :: calls)
  | write {h : Heap} {calls : List Call} (mem : LittleEndian.Bytes) (hcalls : HeapCalls h₀ h calls) :
      HeapCalls h₀ { h with mem := mem } calls

/-- No block exists, and the break is at a page boundary. -/
structure Bare (h : Heap) : Prop where
  head : h.head = 0
  aligned : h.brk % 4096 = 0

variable {h h' h₀ : Heap} {o : HeapOp} {calls : List Call} {r n size : ℕ}

theorem need_mod (n : ℕ) : need n % 4096 = 0 := by
  rw [need_eq_mod]
  exact Nat.mul_mod_left _ _

theorem intptr_need_mod (n : ℕ) : intptr (need n) % 4096 = 0 := by
  have hmod := need_mod n
  rw [intptr]
  split <;> omega

theorem Bare.findFree (hb : Bare h) (n : ℕ) : h.findFree n = some 0 := by
  have hturns : TURNS = 2 ^ 32 - 1 + 1 := by norm_num [TURNS]
  rw [Heap.findFree, hturns, Heap.findFreeLoop, if_pos hb.head]

/-- The increments are whole pages. -/
theorem Bare.grown (hb : Bare h) (hg : Grown h h' n) : h'.brk % 4096 = 0 := by
  have haligned := hb.aligned
  have hmod := intptr_need_mod n
  rcases hg.brk with ⟨hbrk, -⟩ | ⟨-, hbrk, -⟩
  · omega
  · omega

/-- Without blocks `malloc` returns `NULL` or an address 4 behind a multiple of 8. -/
theorem Bare.malloc (hb : Bare h) (hm : h.malloc size = some (r, h')) :
    (size = 0 ∨ h.Starves (roundUp size)) ∧ r = 0 ∧ Bare h' ∨
      ¬ (size = 0 ∨ h.Starves (roundUp size)) ∧ r % 8 = 4 := by
  by_cases hsize : size = 0
  · subst hsize
    obtain ⟨rfl, rfl⟩ := Prod.mk.inj (Option.some.inj hm)
    exact .inl ⟨.inl rfl, rfl, hb⟩
  · rcases malloc_cases hsize hm with ⟨b, hne, hfound, -⟩ |
      ⟨-, hgrown, ⟨hstarves, rfl, hhead⟩ | ⟨hno, rfl⟩⟩
    · rw [hb.findFree] at hfound
      exact absurd (Option.some.inj hfound).symm hne
    · exact .inl ⟨.inr hstarves, rfl, hhead.trans hb.head, hb.grown hgrown⟩
    · refine .inr ⟨?_, ?_⟩
      · rintro (hzero | hstarves)
        · exact hsize hzero
        · exact hno hstarves
      · have haligned := hb.aligned
        rw [HDR]
        omega

/-- One call of a program that has no block yet. -/
theorem Bare.step (hb : Bare h) (hnull : ∀ c ∈ calls, c.result = 0) (hknown : o.Known calls)
    (hrun : o.run h = some (r, h')) :
    o.Starves h ∧ r = 0 ∧ Bare h' ∨ ¬ o.Starves h ∧ r % 8 = 4 := by
  have hptr : ∀ ptr, ptr = 0 ∨ ptr ∈ calls.map Call.result → ptr = 0 := by
    rintro ptr (hzero | hmem)
    · exact hzero
    · obtain ⟨c, hc, rfl⟩ := List.mem_map.mp hmem
      exact hnull c hc
  cases o with
  | malloc size => exact hb.malloc hrun
  | calloc n size =>
      by_cases ho : Overflows n size
      · have hcall : h.calloc n size = some (r, h') := hrun
        rw [calloc_of_overflows ho] at hcall
        obtain ⟨rfl, rfl⟩ := Prod.mk.inj (Option.some.inj hcall)
        exact .inl ⟨.inl ho, rfl, hb⟩
      · obtain ⟨h₁, hmalloc, -, hsame⟩ := calloc_cases ho hrun
        rcases hb.malloc hmalloc with ⟨hstarves, rfl, hb'⟩ | ⟨hno, hr⟩
        · rw [hsame rfl]
          exact .inl ⟨.inr hstarves, rfl, hb'⟩
        · exact .inr ⟨fun hstarves ↦ hstarves.elim ho hno, hr⟩
  | realloc ptr size =>
      obtain rfl := hptr ptr hknown
      have hmalloc : h.malloc size = some (r, h') := hrun
      rcases hb.malloc hmalloc with ⟨hstarves, rfl, hb'⟩ | ⟨hno, hr⟩
      · exact .inl ⟨⟨rfl, hstarves⟩, rfl, hb'⟩
      · exact .inr ⟨fun hstarves ↦ hno hstarves.2, hr⟩
  | free ptr =>
      obtain rfl := hptr ptr hknown
      obtain ⟨rfl, rfl⟩ := Prod.mk.inj (Option.some.inj hrun)
      exact .inl ⟨rfl, rfl, hb⟩

/-- Either nothing was served yet, or the first pointer that was is misaligned. -/
theorem HeapCalls.first (hcalls : HeapCalls h₀ h calls) (hb : Bare h₀) :
    Bare h ∧ (∀ c ∈ calls, c.op.Starves c.before ∧ c.result = 0) ∨
      ∃ c ∈ calls, ¬ c.op.Starves c.before ∧ c.result % 8 = 4 := by
  induction hcalls with
  | start => exact .inl ⟨hb, nofun⟩
  | call o _ hknown hrun ih =>
      rcases ih with ⟨hbare, hall⟩ | ⟨c, hc, hbad⟩
      · rcases hbare.step (fun c hc ↦ (hall c hc).2) hknown hrun with ⟨hstarves, rfl, hb'⟩ | hbad
        · exact .inl ⟨hb', List.forall_mem_cons.mpr ⟨⟨hstarves, rfl⟩, hall⟩⟩
        · exact .inr ⟨_, List.mem_cons_self, hbad⟩
      · exact .inr ⟨c, List.mem_cons_of_mem _ hc, hbad⟩
  | write mem _ ih =>
      rcases ih with ⟨hbare, hall⟩ | hbad
      · exact .inl ⟨⟨hbare.head, hbare.aligned⟩, hall⟩
      · exact .inr hbad

/-- The pointers of a program are multiples of 8 only if all of them are `NULL`. -/
theorem aligned_iff_starves (hcalls : HeapCalls h₀ h calls) (hb : Bare h₀) :
    (∀ c ∈ calls, c.result ≠ 0 → 8 ∣ c.result) ↔ ∀ c ∈ calls, c.op.Starves c.before := by
  rcases hcalls.first hb with ⟨-, hall⟩ | ⟨c, hc, hserved, hresult⟩
  · exact iff_of_true (fun c hc hne ↦ absurd (hall c hc).2 hne) fun c hc ↦ (hall c hc).1
  · refine iff_of_false (fun halign ↦ ?_) fun hall ↦ hserved (hall c hc)
    have hdvd := halign c hc (by omega)
    omega

/-- A request beyond the limit gets nothing; then a byte is asked for, at the break
0x1000. -/
theorem aligned_iff_starves_small : ∃ c₁ c₂ : Call, c₁.op = .malloc 0x20000 ∧ c₁.result = 0 ∧
    c₂.op = .malloc 1 ∧ c₂.result = 0x100C ∧
    (∃ h, HeapCalls smallBeginning.heap h [c₁] ∧
      ((∀ c ∈ [c₁], c.result ≠ 0 → 8 ∣ c.result) ↔ ∀ c ∈ [c₁], c.op.Starves c.before)) ∧
    ∃ h, HeapCalls smallBeginning.heap h [c₂, c₁] ∧
      ((∀ c ∈ [c₂, c₁], c.result ≠ 0 → 8 ∣ c.result) ↔
        ∀ c ∈ [c₂, c₁], c.op.Starves c.before) := by
  have hmalloc : (smallBeginning.heap.malloc 0x20000).bind (fun x ↦
      (x.2.malloc 1).map fun y ↦ (x.1, y.1)) = some (0, 0x100C) := by decide +kernel
  obtain ⟨⟨r₁, h₁⟩, hcall₁, hmalloc⟩ := Option.bind_eq_some_iff.mp hmalloc
  obtain ⟨⟨r₂, h₂⟩, hcall₂, heq⟩ := Option.map_eq_some_iff.mp hmalloc
  obtain ⟨rfl, rfl⟩ := Prod.mk.inj heq
  have hcalls₁ := HeapCalls.start.call (.malloc 0x20000) trivial hcall₁
  have hcalls₂ := hcalls₁.call (.malloc 1) trivial hcall₂
  exact ⟨_, _, rfl, rfl, rfl, rfl, ⟨h₁, hcalls₁, aligned_iff_starves hcalls₁ ⟨rfl, rfl⟩⟩,
    h₂, hcalls₂, aligned_iff_starves hcalls₂ ⟨rfl, rfl⟩⟩

/-- `malloc(1)` gives 0x100C. -/
theorem malloc_misaligned : ∃ h calls, HeapCalls smallBeginning.heap h calls ∧
    Bare smallBeginning.heap ∧ ¬ ∀ c ∈ calls, c.result ≠ 0 → 8 ∣ c.result := by
  have hmalloc : (smallBeginning.heap.malloc 1).map Prod.fst = some 0x100C := by decide +kernel
  obtain ⟨⟨r, h⟩, hcall, rfl⟩ := Option.map_eq_some_iff.mp hmalloc
  refine ⟨h, _, HeapCalls.start.call (.malloc 1) trivial hcall, ⟨rfl, rfl⟩, fun hall ↦ ?_⟩
  exact absurd (hall _ List.mem_cons_self (by decide)) (by decide)

end Libc

end EclipseOS
