import EclipseOS.Pmm
import EclipseOS.PageMap

/-!
# Walking the stack

`stack_trace_from` follows saved frame pointers.  It checks the page of every
frame, whose two words are at the frame and behind it, before it reads them.
-/

namespace EclipseOS

structure KSymbol where
  addr : ℕ
  name : List UInt8

/-- The last symbol at or before an address, and the offset from it. -/
def symbolLookup (ksymbols : List KSymbol) (addr : ℕ) : Option (KSymbol × ℕ) :=
  let best := ksymbols.foldl (fun best s ↦
    if s.addr ≤ addr ∧ ∀ b ∈ best, b.addr < s.addr then some s else best) none
  best.map fun s ↦ (s, addr - s.addr)

inductive TraceLine
  | badFramePointer (frame : ℕ)
  | assemblyBoundary
  | frame (i eip : ℕ) (symbol : Option (KSymbol × ℕ))

/-- What the walk printed, the frames it came to and the words of them it read.  The last
word of a walk that faulted could not be read. -/
structure StackTrace where
  lines : List TraceLine
  frames : List ℕ
  reads : List ℕ
  faulted : Bool

namespace StackTrace

def stop (line : List TraceLine) (frames reads : List ℕ) : StackTrace :=
  { lines := line, frames, reads, faulted := false }

def fault (frames reads : List ℕ) : StackTrace := { lines := [], frames, reads, faulted := true }

/-- A frame, and the rest of the walk. -/
def next (line : TraceLine) (frame : ℕ) (reads : List ℕ) (rest : StackTrace) : StackTrace :=
  { lines := line :: rest.lines
    frames := frame :: rest.frames
    reads := reads ++ rest.reads
    faulted := rest.faulted }

end StackTrace

/-- `&frame->eip`. -/
def eipAddr (frame : ℕ) : ℕ := (frame + 4) % 2 ^ 32

namespace Machine

open StackTrace

/-- The loop of `stack_trace_from`, with `max_frames - i` turns left. -/
def traceLoop (m : Machine) (image : KernelImage) (ksymbols : List KSymbol) :
    ℕ → ℕ → ℕ → StackTrace
  | 0, _, _ => stop [] [] []
  | left + 1, i, frame =>
      if frame = 0 then stop [] [] []
      else if frame &&& 3 ≠ 0 then stop [.badFramePointer frame] [frame] []
      else match m.pagingVirtToPhys frame with
        | none => fault [frame] []
        | some phys =>
            if phys = NOT_MAPPED then stop [.badFramePointer frame] [frame] []
            else match m.load32 (eipAddr frame) with
              | none => fault [frame] [eipAddr frame]
              | some eip =>
                  if eip < KERNEL_START ∨ image.kernelEnd < eip then
                    stop [.assemblyBoundary] [frame] [eipAddr frame]
                  else match m.load32 frame with
                    | none => fault [frame] [eipAddr frame, frame]
                    | some ebp =>
                        next (.frame i eip (symbolLookup ksymbols eip)) frame [eipAddr frame, frame]
                          (m.traceLoop image ksymbols left (i + 1) ebp)

def stackTraceFrom (m : Machine) (image : KernelImage) (ksymbols : List KSymbol)
    (ebp maxFrames : ℕ) : StackTrace := m.traceLoop image ksymbols maxFrames 0 ebp

/-- The page of an address is mapped. -/
def Mapped (m : Machine) (a : ℕ) : Prop := (m.translate a).isSome

instance (m : Machine) (a : ℕ) : Decidable (m.Mapped a) := inferInstanceAs (Decidable (_ = true))

/-- A frame pointer that the walk does not reject. -/
structure GoodFrame (m : Machine) (frame : ℕ) : Prop where
  nonzero : frame ≠ 0
  aligned : frame % 4 = 0
  mapped : m.Mapped frame

/-- The `n`th frame of the chain that begins at `ebp`: a return address in the image and the
saved frame pointer lead from one to the next. -/
inductive InChain (m : Machine) (image : KernelImage) (ebp : ℕ) : ℕ → ℕ → Prop
  | first : InChain m image ebp 0 ebp
  | next {n frame eip saved : ℕ} (h : InChain m image ebp n frame) (hgood : m.GoodFrame frame)
      (heip : m.load32 (eipAddr frame) = some eip) (hlo : KERNEL_START ≤ eip)
      (hhi : eip ≤ image.kernelEnd) (hsaved : m.load32 frame = some saved) :
      InChain m image ebp (n + 1) saved

/-- No good frame of the chain is the last word of a page before one that is not mapped. -/
def NoFrameAtEdge (m : Machine) (image : KernelImage) (ebp maxFrames : ℕ) : Prop :=
  ∀ n < maxFrames, ∀ frame, m.InChain image ebp n frame → m.GoodFrame frame →
    frame % PAGE_SIZE = PAGE_SIZE - 4 → m.Mapped (eipAddr frame)

variable {m : Machine} {image : KernelImage} {ksymbols : List KSymbol} {a frame ebp left i n : ℕ}

theorem mapped_page {d t o : ℕ} (hd : d < 1024) (ht : t < 1024) (ho : o < 4096) :
    m.Mapped (pageAddr d t + o) ↔ (m.frameAt d t).isSome := by
  rw [Mapped, translate_page hd ht ho, Option.isSome_map]

/-- An aligned word is in one page. -/
theorem load32_isSome (ha : a < 2 ^ 32) (haligned : a % 4 = 0) :
    (m.load32 a).isSome ↔ m.Mapped a := by
  obtain ⟨d, t, o, hd, ht, ho, rfl⟩ := exists_pageAddr ha
  obtain ⟨j, rfl⟩ : ∃ j, o = 4 * j := ⟨o / 4, by rw [pageAddr] at haligned; omega⟩
  rw [mapped_page hd ht ho]
  cases hframe : m.frameAt d t with
  | none => rw [load32_page_none hd ht (by omega) hframe]
  | some F =>
      rw [load32_page hd ht (by omega) hframe]
      simp

theorem load32_lt {w : ℕ} (h : m.load32 a = some w) : w < 2 ^ 32 := by
  rw [load32] at h
  obtain ⟨b₀, -, h⟩ := Option.bind_eq_some_iff.mp h
  obtain ⟨b₁, -, h⟩ := Option.bind_eq_some_iff.mp h
  obtain ⟨b₂, -, h⟩ := Option.bind_eq_some_iff.mp h
  obtain ⟨b₃, -, h⟩ := Option.bind_eq_some_iff.mp h
  rw [← Option.some.inj h]
  exact LittleEndian.joinBytes_lt b₀ b₁ b₂ b₃

/-- What `paging_virt_to_phys` answers for an aligned address. -/
theorem virtToPhys_mapped (hm : m.Recursive) (ha : a < 2 ^ 32) (haligned : a % 4 = 0) :
    ∃ phys, m.pagingVirtToPhys a = some phys ∧ (phys = NOT_MAPPED ↔ ¬ m.Mapped a) := by
  obtain ⟨d, t, o, hd, ht, ho, rfl⟩ := exists_pageAddr ha
  refine ⟨_, pagingVirtToPhys_addr hm hd ht ho, ?_⟩
  rw [mapped_page hd ht ho]
  cases hframe : m.frameAt d t with
  | none => simp
  | some F =>
      have hne : F * 4096 + o ≠ NOT_MAPPED := by
        rw [pageAddr] at haligned
        simp only [NOT_MAPPED]
        omega
      simpa using hne

theorem eipAddr_lt (frame : ℕ) : eipAddr frame < 2 ^ 32 := Nat.mod_lt _ (by norm_num)

/-- The return address is in the page of the frame, unless that is the last word. -/
theorem GoodFrame.eip_mapped (h : m.GoodFrame frame) (hlt : frame < 2 ^ 32)
    (hedge : frame % PAGE_SIZE ≠ PAGE_SIZE - 4) : m.Mapped (eipAddr frame) := by
  have haligned := h.aligned
  have hmapped := h.mapped
  obtain ⟨d, t, o, hd, ht, ho, rfl⟩ := exists_pageAddr hlt
  have hnext : eipAddr (pageAddr d t + o) = pageAddr d t + (o + 4) ∧ o + 4 < 4096 := by
    simp only [eipAddr, pageAddr, PAGE_SIZE] at haligned hedge hlt ⊢
    omega
  rw [hnext.1, mapped_page hd ht hnext.2]
  exact (mapped_page hd ht ho).mp hmapped

/-- The chain goes on from the first frame as it does from the second. -/
theorem inChain_succ {saved eip : ℕ} (hgood : m.GoodFrame frame)
    (heip : m.load32 (eipAddr frame) = some eip) (hlo : KERNEL_START ≤ eip)
    (hhi : eip ≤ image.kernelEnd) (hsaved : m.load32 frame = some saved) {g : ℕ} :
    m.InChain image frame (n + 1) g ↔ m.InChain image saved n g := by
  constructor
  · intro h
    induction n generalizing g with
    | zero =>
        cases h with
        | next h _ _ _ _ hsaved' =>
            cases h
            obtain rfl := Option.some.inj (hsaved.symm.trans hsaved')
            exact .first
    | succ n ih =>
        cases h with
        | next h hg he hl hh hs => exact .next (ih h) hg he hl hh hs
  · intro h
    induction h with
    | first => exact .next .first hgood heip hlo hhi hsaved
    | next _ hg he hl hh hs ih => exact .next ih hg he hl hh hs

/-- A chain that ends with its first frame. -/
theorem noFrameAtEdge_of_last (hfirst : m.GoodFrame frame → m.Mapped (eipAddr frame))
    (hlast : ∀ n g, ¬ m.InChain image frame (n + 1) g) (left : ℕ) :
    m.NoFrameAtEdge image frame left := by
  intro n _ g hg hgood _
  cases n with
  | zero =>
      cases hg
      exact hfirst hgood
  | succ n => exact absurd hg (hlast n g)

theorem not_inChain {g : ℕ}
    (h : ¬ ∃ eip saved, m.GoodFrame frame ∧ m.load32 (eipAddr frame) = some eip ∧
      KERNEL_START ≤ eip ∧ eip ≤ image.kernelEnd ∧ m.load32 frame = some saved) :
    ¬ m.InChain image frame (n + 1) g := by
  intro hchain
  induction n generalizing g with
  | zero =>
      cases hchain with
      | next hfirst hg he hl hh hs =>
          cases hfirst
          exact h ⟨_, _, hg, he, hl, hh, hs⟩
  | succ n ih =>
      cases hchain with
      | next hprev => exact ih hprev

/-- A walk reads mapped words only, and does not fault, exactly when no frame of the chain
is at the edge. -/
def Safe (trace : StackTrace) (m : Machine) (image : KernelImage) (ebp left : ℕ) : Prop :=
  ((∀ a ∈ trace.reads, m.Mapped a) ↔ m.NoFrameAtEdge image ebp left) ∧
    (trace.faulted = false ↔ m.NoFrameAtEdge image ebp left)

/-- A rejected frame ends the walk before its words are read. -/
theorem safe_rejected (lines : List TraceLine) (frames : List ℕ) (hbad : ¬ m.GoodFrame frame) :
    Safe (StackTrace.stop lines frames []) m image frame left := by
  have hedge : m.NoFrameAtEdge image frame left :=
    noFrameAtEdge_of_last (fun hgood ↦ absurd hgood hbad)
      (fun n g ↦ not_inChain fun ⟨_, _, hgood, _⟩ ↦ hbad hgood) left
  exact ⟨iff_of_true (fun _ ha ↦ absurd ha List.not_mem_nil) hedge, iff_of_true rfl hedge⟩

theorem traceLoop_safe (image : KernelImage) (ksymbols : List KSymbol) (left i : ℕ)
    (hm : m.Recursive) (hframe : frame < 2 ^ 32) : Safe (m.traceLoop image ksymbols left i frame) m image frame left := by
  induction left generalizing frame i with
  | zero =>
      have hedge : m.NoFrameAtEdge image frame 0 := fun _ hn ↦ absurd hn (Nat.not_lt_zero _)
      exact ⟨iff_of_true (fun _ ha ↦ absurd ha List.not_mem_nil) hedge, iff_of_true rfl hedge⟩
  | succ left ih =>
      rw [traceLoop]
      by_cases hzero : frame = 0
      · rw [if_pos hzero]
        exact safe_rejected _ _ fun hgood ↦ hgood.nonzero hzero
      have hmask : frame &&& 3 = frame % 4 := Nat.and_two_pow_sub_one_eq_mod frame 2
      rw [if_neg hzero, hmask]
      by_cases haligned : frame % 4 = 0
      swap
      · rw [if_pos haligned]
        exact safe_rejected _ _ fun hgood ↦ haligned hgood.aligned
      obtain ⟨phys, hphys, hmapped⟩ := virtToPhys_mapped hm hframe haligned
      rw [if_neg (not_not_intro haligned), hphys]
      dsimp only
      by_cases hpage : m.Mapped frame
      swap
      · rw [if_pos (hmapped.mpr hpage)]
        exact safe_rejected _ _ fun hgood ↦ hpage hgood.mapped
      have hgood : m.GoodFrame frame := ⟨hzero, haligned, hpage⟩
      have heipAligned : eipAddr frame % 4 = 0 := by
        rw [eipAddr]
        omega
      have heip := load32_isSome (m := m) (eipAddr_lt frame) heipAligned
      rw [if_neg (mt hmapped.mp (not_not_intro hpage))]
      cases hload : m.load32 (eipAddr frame) with
      | none =>
          -- the frame is the last word of its page, and the next page is not mapped
          rw [hload] at heip
          have hunmapped : ¬ m.Mapped (eipAddr frame) := by simpa using heip
          have hedge : ¬ m.NoFrameAtEdge image frame (left + 1) := by
            intro h
            by_cases hlast : frame % PAGE_SIZE = PAGE_SIZE - 4
            · exact hunmapped (h 0 (Nat.succ_pos left) frame .first hgood hlast)
            · exact hunmapped (hgood.eip_mapped hframe hlast)
          refine ⟨iff_of_false (fun h ↦ ?_) hedge, iff_of_false Bool.noConfusion hedge⟩
          exact hunmapped (h _ (List.mem_singleton_self _))
      | some eip =>
          have hmappedEip : m.Mapped (eipAddr frame) := by
            rw [hload] at heip
            exact heip.mp rfl
          dsimp only
          by_cases hout : eip < KERNEL_START ∨ image.kernelEnd < eip
          · have hedge : m.NoFrameAtEdge image frame (left + 1) := by
              refine noFrameAtEdge_of_last (fun _ ↦ hmappedEip) (fun n g ↦ not_inChain ?_) _
              rintro ⟨eip', saved, -, he, hlo, hhi, -⟩
              obtain rfl := Option.some.inj (hload.symm.trans he)
              omega
            rw [if_pos hout]
            refine ⟨iff_of_true (fun a ha ↦ ?_) hedge, iff_of_true rfl hedge⟩
            rw [List.mem_singleton.mp ha]
            exact hmappedEip
          · obtain ⟨saved, hsaved⟩ :=
              Option.isSome_iff_exists.mp ((load32_isSome hframe haligned).mpr hpage)
            rw [if_neg hout, hsaved]
            dsimp only
            obtain ⟨hlo, hhi⟩ : KERNEL_START ≤ eip ∧ eip ≤ image.kernelEnd := by omega
            have hrest := ih (i := i + 1) (load32_lt hsaved)
            have hedge : m.NoFrameAtEdge image frame (left + 1) ↔
                m.NoFrameAtEdge image saved left := by
              constructor
              · intro h n hn g hg
                exact h (n + 1) (Nat.succ_lt_succ hn) g
                  ((inChain_succ hgood hload hlo hhi hsaved).mpr hg)
              · intro h n hn g hg hgood' hlast
                cases n with
                | zero =>
                    cases hg
                    exact hmappedEip
                | succ n =>
                    exact h n (Nat.lt_of_succ_lt_succ hn) g
                      ((inChain_succ hgood hload hlo hhi hsaved).mp hg) hgood' hlast
            rw [Safe, hedge]
            refine ⟨?_, hrest.2⟩
            rw [← hrest.1]
            simp [StackTrace.next, hmappedEip, hpage]

theorem traceLoop_length : (m.traceLoop image ksymbols left i frame).frames.length ≤ left := by
  induction left generalizing i frame with
  | zero => exact Nat.le_refl 0
  | succ left ih =>
      have hone : 1 ≤ left + 1 := Nat.succ_le_succ (Nat.zero_le left)
      rw [traceLoop]
      split
      · exact Nat.zero_le _
      split
      · exact hone
      split
      · exact hone
      split
      · exact hone
      split
      · exact hone
      split
      · exact hone
      split
      · exact hone
      · exact Nat.succ_le_succ ih

/-- At most `maxFrames` frames are looked at, and all words that are read are mapped exactly
when no frame of the chain is the last word of a page before one that is not mapped. -/
theorem stackTraceFrom_mapped_iff (hm : m.Recursive) (image : KernelImage)
    (ksymbols : List KSymbol) (hebp : ebp < 2 ^ 32) (maxFrames : ℕ) :
    (m.stackTraceFrom image ksymbols ebp maxFrames).frames.length ≤ maxFrames ∧
      ((∀ a ∈ (m.stackTraceFrom image ksymbols ebp maxFrames).reads, m.Mapped a) ↔
        m.NoFrameAtEdge image ebp maxFrames) ∧
      ((m.stackTraceFrom image ksymbols ebp maxFrames).faulted = false ↔
        m.NoFrameAtEdge image ebp maxFrames) := by
  obtain ⟨hreads, hfaulted⟩ := traceLoop_safe image ksymbols maxFrames 0 hm hebp
  exact ⟨traceLoop_length, hreads, hfaulted⟩

end Machine

namespace Sample

def image : KernelImage := { kernelEnd := 0x140000, start_lt := by decide, end_le := by decide }

/-- Two frames at the start of the user page, with return addresses into the kernel. -/
def twoFrames : Machine :=
  ((((machine 4).setWord 5 0 0x400008).setWord 5 1 0x100500).setWord 5 2 0).setWord 5 3 0x100600

theorem stackTraceFrom_inside :
    (twoFrames.stackTraceFrom image [] 0x400000 16).frames = [0x400000, 0x400008] ∧
      twoFrames.NoFrameAtEdge image 0x400000 16 ∧
      ∀ a ∈ (twoFrames.stackTraceFrom image [] 0x400000 16).reads, twoFrames.Mapped a := by
  have hrec : twoFrames.Recursive :=
    ((((Machine.paged_sample 4).window.setWord (Or.inl (by decide)) _).setWord (Or.inl (by decide))
      _).setWord (Or.inl (by decide)) _).setWord (Or.inl (by decide)) _
  obtain ⟨-, hreads, hfaulted⟩ := Machine.stackTraceFrom_mapped_iff hrec image []
    (by norm_num : 0x400000 < 2 ^ 32) 16
  have hedge := hfaulted.mp (by decide +kernel)
  exact ⟨by decide +kernel, hedge, hreads.mpr hedge⟩

/-- The last word of the user page: the return address would be in the next page. -/
theorem stackTraceFrom_edge : ¬ ∀ (m : Machine), m.Recursive → ∀ (image : KernelImage)
    (ksymbols : List KSymbol) (ebp maxFrames : ℕ), ebp < 2 ^ 32 →
      ∀ a ∈ (m.stackTraceFrom image ksymbols ebp maxFrames).reads, m.Mapped a := by
  intro h
  have hread := h (machine 4) (Machine.paged_sample 4).window image [] 0x400FFC 16 (by norm_num)
    0x401000 (by decide)
  revert hread
  decide

end Sample

end EclipseOS
