import EclipseOS.Lib.Circular

/-!
# The keyboard

The interrupt handler translates scancodes and puts characters into a ring of
128 slots.  `keyboard_getchar` and `keyboard_available` run with interrupts
enabled: they are split into their accesses to the two indices and to the ring,
and a push may come between any two of these.
-/

namespace EclipseOS

def kbdBufferSize : ℕ := 128

structure Keyboard where
  kbdBuffer : ℕ → UInt8
  /-- Written by the interrupt handler. -/
  kbdHead : ℕ
  /-- Written by the reader. -/
  kbdTail : ℕ
  shiftDown : Bool
  ctrlDown : Bool
  altDown : Bool
  capsLock : Bool
  extended : Bool

namespace Keyboard

def initial : Keyboard :=
  { kbdBuffer := fun _ ↦ 0, kbdHead := 0, kbdTail := 0, shiftDown := false, ctrlDown := false,
    altDown := false, capsLock := false, extended := false }

def kbdPush (c : UInt8) (k : Keyboard) : Keyboard :=
  let next := (k.kbdHead + 1) % kbdBufferSize
  if next = k.kbdTail then k
  else { k with kbdBuffer := Function.update k.kbdBuffer k.kbdHead c, kbdHead := next }

/-- The number of characters in the ring. -/
def pending (k : Keyboard) : ℕ := (k.kbdHead + kbdBufferSize - k.kbdTail) % kbdBufferSize

def queue (k : Keyboard) : List UInt8 :=
  Circular.window k.kbdBuffer kbdBufferSize k.kbdTail k.pending

end Keyboard

/-- Where the reader is.  `kbd_head == kbd_tail` reads the two indices in either order. -/
inductive Reader
  | idle
  | testing (head tail : Option ℕ)
  | halted
  | indexing
  | fetching (tail : ℕ)
  | fetched (c : UInt8)
  | advancing (c : UInt8) (tail : ℕ)
  | returning (c : UInt8)
  | asking (head tail : Option ℕ)

inductive KeyboardAction
  | push (c : UInt8)
  | getchar
  | available
  | readHead
  | readTail
  | proceed

/-- The ring, its reader and what has gone through it so far. -/
structure KeyboardRun where
  keyboard : Keyboard
  reader : Reader
  accepted : List UInt8
  returned : List UInt8
  /-- The answers of `keyboard_available`. -/
  answers : List Bool

namespace KeyboardRun

open Reader

def initial : KeyboardRun :=
  { keyboard := Keyboard.initial, reader := idle, accepted := [], returned := [],
    answers := [] }

/-- The next step of a reader that does not depend on the choice of an index. -/
def proceed (s : KeyboardRun) : Option KeyboardRun :=
  match s.reader with
  | testing (some head) (some tail) =>
      some { s with reader := if head = tail then halted else indexing }
  | halted => some { s with reader := testing none none }
  | indexing => some { s with reader := fetching s.keyboard.kbdTail }
  | fetching tail => some { s with reader := fetched (s.keyboard.kbdBuffer tail) }
  | fetched c => some { s with reader := advancing c s.keyboard.kbdTail }
  | advancing c tail =>
      some { s with
        keyboard := { s.keyboard with kbdTail := (tail + 1) % kbdBufferSize }
        reader := returning c }
  | returning c => some { s with reader := idle, returned := s.returned ++ [c] }
  | asking (some head) (some tail) =>
      some { s with reader := idle, answers := s.answers ++ [decide (head ≠ tail)] }
  | _ => none

/-- A push counts as accepted when it moves the head. -/
def step (s : KeyboardRun) : KeyboardAction → Option KeyboardRun
  | .push c =>
      let k := s.keyboard.kbdPush c
      let accepted := if k.kbdHead = s.keyboard.kbdHead then s.accepted else s.accepted ++ [c]
      some { s with keyboard := k, accepted }
  | .getchar =>
      match s.reader with
      | idle => some { s with reader := testing none none }
      | _ => none
  | .available =>
      match s.reader with
      | idle => some { s with reader := asking none none }
      | _ => none
  | .readHead =>
      match s.reader with
      | testing none tail => some { s with reader := testing (some s.keyboard.kbdHead) tail }
      | asking none tail => some { s with reader := asking (some s.keyboard.kbdHead) tail }
      | _ => none
  | .readTail =>
      match s.reader with
      | testing head none => some { s with reader := testing head (some s.keyboard.kbdTail) }
      | asking head none => some { s with reader := asking head (some s.keyboard.kbdTail) }
      | _ => none
  | .proceed => s.proceed

def run (s : KeyboardRun) : List KeyboardAction → Option KeyboardRun
  | [] => some s
  | action :: rest => (s.step action).bind fun s' ↦ s'.run rest

/-- The character that has left the ring but is not yet returned. -/
def inHand (s : KeyboardRun) : List UInt8 :=
  match s.reader with
  | returning c => [c]
  | _ => []

end KeyboardRun

namespace Keyboard

variable {k : Keyboard} {c : UInt8}

theorem pending_lt (k : Keyboard) : k.pending < kbdBufferSize := Nat.mod_lt _ (by decide)

theorem length_queue (k : Keyboard) : k.queue.length = k.pending := Circular.length_window

/-- The indices of a ring that stay in range. -/
structure InRange (k : Keyboard) : Prop where
  head : k.kbdHead < kbdBufferSize
  tail : k.kbdTail < kbdBufferSize

/-- The head is as many slots after the tail as there are characters. -/
theorem InRange.head_eq (h : k.InRange) : k.kbdHead = (k.kbdTail + k.pending) % kbdBufferSize := by
  have hhead := h.head
  have htail := h.tail
  simp only [pending, kbdBufferSize] at hhead htail ⊢
  omega

theorem InRange.pending_pos (h : k.InRange) : 0 < k.pending ↔ k.kbdHead ≠ k.kbdTail := by
  have hhead := h.head
  have htail := h.tail
  simp only [pending, kbdBufferSize] at hhead htail ⊢
  omega

theorem InRange.full (h : k.InRange) :
    (k.kbdHead + 1) % kbdBufferSize = k.kbdTail ↔ k.pending = 127 := by
  have hhead := h.head
  have htail := h.tail
  simp only [pending, kbdBufferSize] at hhead htail ⊢
  omega

theorem kbdPush_full (h : k.InRange) (hfull : k.pending = 127) : k.kbdPush c = k := by
  rw [kbdPush]
  exact if_pos (h.full.mpr hfull)

/-- A ring with room takes the character at its end. -/
theorem kbdPush_room (h : k.InRange) (hroom : k.pending < 127) :
    (k.kbdPush c).InRange ∧ (k.kbdPush c).kbdTail = k.kbdTail ∧
      (k.kbdPush c).kbdHead ≠ k.kbdHead ∧ (k.kbdPush c).pending = k.pending + 1 ∧
      (k.kbdPush c).queue = k.queue ++ [c] := by
  have hhead := h.head
  have htail := h.tail
  have hnot : (k.kbdHead + 1) % kbdBufferSize ≠ k.kbdTail := by
    rw [Ne, h.full]
    omega
  have hpush : k.kbdPush c =
      { k with
        kbdBuffer := Function.update k.kbdBuffer k.kbdHead c
        kbdHead := (k.kbdHead + 1) % kbdBufferSize } := by
    rw [kbdPush]
    exact if_neg hnot
  have hpending : (k.kbdPush c).pending = k.pending + 1 := by
    rw [hpush]
    simp only [pending, kbdBufferSize] at hhead htail hroom ⊢
    omega
  have htail' : (k.kbdPush c).kbdTail = k.kbdTail := by rw [hpush]
  refine ⟨⟨?_, ?_⟩, htail', ?_, hpending, ?_⟩
  · rw [hpush]
    exact Nat.mod_lt _ (by decide)
  · rw [htail']
    exact htail
  · rw [hpush]
    simp only [kbdBufferSize] at hhead ⊢
    omega
  · rw [queue, hpending, htail', hpush, h.head_eq]
    apply Circular.window_push
    simp only [kbdBufferSize]
    omega

theorem kbdPush_eq_iff (h : k.InRange) : k.kbdPush c = k ↔ k.pending = 127 := by
  constructor
  · intro heq
    by_contra hne
    have hroom : k.pending < 127 := by
      have := k.pending_lt
      simp only [kbdBufferSize] at this
      omega
    exact (kbdPush_room h hroom).2.2.1 (by rw [heq])
  · exact kbdPush_full h

/-- The tail moves on past a character. -/
theorem queue_advance (h : k.InRange) (hpos : 0 < k.pending) :
    k.queue = k.kbdBuffer k.kbdTail ::
      queue { k with kbdTail := (k.kbdTail + 1) % kbdBufferSize } := by
  have hhead := h.head
  have htail := h.tail
  have hpending : k.pending =
      pending { k with kbdTail := (k.kbdTail + 1) % kbdBufferSize } + 1 := by
    simp only [pending, kbdBufferSize] at hhead htail hpos ⊢
    omega
  rw [queue, hpending, Circular.window_cons, Nat.mod_eq_of_lt htail, queue, Circular.window_mod]

end Keyboard

namespace KeyboardRun

open Reader

variable {s s' : KeyboardRun} {action : KeyboardAction}

/-- What a comparison of the two indices has read of them. -/
def Compared (k : Keyboard) (head tail : Option ℕ) : Prop :=
  (∀ h ∈ head, h ≠ k.kbdTail → 0 < k.pending) ∧ ∀ t ∈ tail, t = k.kbdTail

/-- What the reader relies on while it is between two steps. -/
def Relies (k : Keyboard) : Reader → Prop
  | testing head tail => Compared k head tail
  | asking head tail => Compared k head tail
  | indexing => 0 < k.pending
  | fetching tail => 0 < k.pending ∧ tail = k.kbdTail
  | fetched c => 0 < k.pending ∧ c = k.kbdBuffer k.kbdTail
  | advancing c tail => 0 < k.pending ∧ c = k.kbdBuffer k.kbdTail ∧ tail = k.kbdTail
  | _ => True

structure Fifo (s : KeyboardRun) : Prop where
  range : s.keyboard.InRange
  flow : s.accepted = s.returned ++ s.inHand ++ s.keyboard.queue
  relies : Relies s.keyboard s.reader

theorem fifo_initial : initial.Fifo :=
  { range := ⟨by decide, by decide⟩, flow := rfl, relies := trivial }

/-- A push takes nothing away that the reader relies on. -/
theorem Relies.push {k k' : Keyboard} {r : Reader} (h : Relies k r) (htail : k'.kbdTail = k.kbdTail)
    (hpending : k.pending ≤ k'.pending)
    (hslot : 0 < k.pending → k'.kbdBuffer k.kbdTail = k.kbdBuffer k.kbdTail) : Relies k' r := by
  have hcompared : ∀ {head tail}, Compared k head tail → Compared k' head tail := by
    rintro head tail ⟨hhead, ht⟩
    refine ⟨fun i hi hne ↦ ?_, fun i hi ↦ (ht i hi).trans htail.symm⟩
    rw [htail] at hne
    exact (hhead i hi hne).trans_le hpending
  cases r with
  | testing head tail => exact hcompared h
  | asking head tail => exact hcompared h
  | indexing => exact Nat.lt_of_lt_of_le h hpending
  | fetching tail => exact ⟨h.1.trans_le hpending, by rw [htail]; exact h.2⟩
  | fetched c => exact ⟨h.1.trans_le hpending, by rw [htail, hslot h.1]; exact h.2⟩
  | advancing c tail =>
      refine ⟨h.1.trans_le hpending, ?_, ?_⟩
      · rw [htail, hslot h.1]
        exact h.2.1
      · rw [htail]
        exact h.2.2
  | idle => trivial
  | halted => trivial
  | returning c => trivial

theorem Fifo.push {c : UInt8} (h : s.Fifo) (hstep : s.step (.push c) = some s') : s'.Fifo := by
  rw [step] at hstep
  obtain hfull | hroom : s.keyboard.pending = 127 ∨ s.keyboard.pending < 127 := by
    have := s.keyboard.pending_lt
    simp only [kbdBufferSize] at this
    omega
  · rw [Keyboard.kbdPush_full h.range hfull] at hstep
    obtain rfl := Option.some.inj hstep
    exact ⟨h.range, by simpa [inHand] using h.flow, h.relies⟩
  · obtain ⟨hrange, htail, hhead, hpending, hqueue⟩ := Keyboard.kbdPush_room (c := c) h.range hroom
    simp only [if_neg hhead, Option.some.injEq] at hstep
    subst hstep
    have hle : s.keyboard.pending ≤ (s.keyboard.kbdPush c).pending := by omega
    refine ⟨hrange, ?_, h.relies.push htail hle fun hpos ↦ ?_⟩
    · have hflow := h.flow
      simp only [inHand] at hflow ⊢
      rw [hqueue, hflow, List.append_assoc]
    · -- the slot under the tail stays the first of the queue
      have hfirst := Keyboard.queue_advance h.range hpos
      have hfirst' := Keyboard.queue_advance hrange (hpos.trans_le hle)
      rw [hqueue, hfirst, List.cons_append, List.cons.injEq] at hfirst'
      rw [← htail]
      exact hfirst'.1.symm.trans (by rw [htail])

/-- A step that only moves the reader. -/
theorem Fifo.move {r : Reader} (h : s.Fifo) (hrelies : Relies s.keyboard r)
    (hhand : inHand { s with reader := r } = s.inHand) : Fifo { s with reader := r } :=
  { range := h.range, flow := by rw [hhand]; exact h.flow, relies := hrelies }

theorem compared_none (k : Keyboard) : Compared k none none :=
  ⟨fun _ hi ↦ absurd hi (by simp), fun _ hi ↦ absurd hi (by simp)⟩

theorem Compared.readHead {k : Keyboard} {tail : Option ℕ} (hrange : k.InRange)
    (h : Compared k none tail) : Compared k (some k.kbdHead) tail := by
  refine ⟨fun _ hi hne ↦ ?_, h.2⟩
  obtain rfl := Option.mem_some_iff.mp hi
  exact hrange.pending_pos.mpr hne

theorem Compared.readTail {k : Keyboard} {head : Option ℕ} (h : Compared k head none) :
    Compared k head (some k.kbdTail) :=
  ⟨h.1, fun _ hi ↦ (Option.mem_some_iff.mp hi).symm⟩

theorem Compared.ne {k : Keyboard} {head tail : ℕ} (h : Compared k (some head) (some tail))
    (hne : head ≠ tail) : 0 < k.pending := by
  obtain rfl := h.2 tail rfl
  exact h.1 head rfl hne

theorem Fifo.proceed (h : s.Fifo) (hstep : s.proceed = some s') : s'.Fifo := by
  have hrelies := h.relies
  have hflow := h.flow
  rw [KeyboardRun.proceed] at hstep
  split at hstep
  · next head tail hr =>
      rw [hr] at hrelies
      obtain rfl := Option.some.inj hstep
      apply h.move
      · split
        · trivial
        · next hne => exact hrelies.ne hne
      · by_cases heq : head = tail <;> simp [inHand, hr, heq]
  · next hr =>
      obtain rfl := Option.some.inj hstep
      exact h.move (compared_none _) (by simp [inHand, hr])
  · next hr =>
      rw [hr] at hrelies
      obtain rfl := Option.some.inj hstep
      exact h.move ⟨hrelies, rfl⟩ (by simp [inHand, hr])
  · next tail hr =>
      rw [hr] at hrelies
      obtain rfl := Option.some.inj hstep
      exact h.move ⟨hrelies.1, by rw [hrelies.2]⟩ (by simp [inHand, hr])
  · next c hr =>
      rw [hr] at hrelies
      obtain rfl := Option.some.inj hstep
      exact h.move ⟨hrelies.1, hrelies.2, rfl⟩ (by simp [inHand, hr])
  · next c tail hr =>
      -- the character leaves the ring and is in the reader's hand
      rw [hr] at hrelies
      obtain ⟨hpos, hc, htail⟩ := hrelies
      obtain rfl := Option.some.inj hstep
      refine ⟨⟨h.range.head, Nat.mod_lt _ (by decide)⟩, ?_, trivial⟩
      simp only [inHand, hr, List.append_nil] at hflow ⊢
      rw [hflow, Keyboard.queue_advance h.range hpos, hc, htail, List.append_assoc,
        List.singleton_append]
  · next c hr =>
      obtain rfl := Option.some.inj hstep
      refine ⟨h.range, ?_, trivial⟩
      simp only [inHand, hr, List.append_nil] at hflow ⊢
      exact hflow
  · next head tail hr =>
      obtain rfl := Option.some.inj hstep
      refine ⟨h.range, ?_, trivial⟩
      simp only [inHand, hr, List.append_nil] at hflow ⊢
      exact hflow
  · cases hstep

theorem Fifo.step (h : s.Fifo) (hstep : s.step action = some s') : s'.Fifo := by
  have hrelies := h.relies
  cases action with
  | push c => exact h.push hstep
  | getchar =>
      rw [KeyboardRun.step] at hstep
      split at hstep
      · next hr =>
          obtain rfl := Option.some.inj hstep
          exact h.move (compared_none _) (by simp [inHand, hr])
      · cases hstep
  | available =>
      rw [KeyboardRun.step] at hstep
      split at hstep
      · next hr =>
          obtain rfl := Option.some.inj hstep
          exact h.move (compared_none _) (by simp [inHand, hr])
      · cases hstep
  | readHead =>
      rw [KeyboardRun.step] at hstep
      split at hstep
      · next tail hr =>
          rw [hr] at hrelies
          obtain rfl := Option.some.inj hstep
          exact h.move (Compared.readHead h.range hrelies) (by simp [inHand, hr])
      · next tail hr =>
          rw [hr] at hrelies
          obtain rfl := Option.some.inj hstep
          exact h.move (Compared.readHead h.range hrelies) (by simp [inHand, hr])
      · cases hstep
  | readTail =>
      rw [KeyboardRun.step] at hstep
      split at hstep
      · next head hr =>
          rw [hr] at hrelies
          obtain rfl := Option.some.inj hstep
          exact h.move (Compared.readTail hrelies) (by simp [inHand, hr])
      · next head hr =>
          rw [hr] at hrelies
          obtain rfl := Option.some.inj hstep
          exact h.move (Compared.readTail hrelies) (by simp [inHand, hr])
      · cases hstep
  | proceed => exact h.proceed hstep

theorem Fifo.run {actions : List KeyboardAction} (h : s.Fifo) (hrun : s.run actions = some s') :
    s'.Fifo := by
  induction actions generalizing s with
  | nil =>
      obtain rfl := Option.some.inj hrun
      exact h
  | cons action rest ih =>
      obtain ⟨t, hstep, hrest⟩ := Option.bind_eq_some_iff.mp hrun
      exact ih (h.step hstep) hrest

/-- Whatever pushes come between the accesses of the reader, the characters returned,
the one in hand and those in the ring are the accepted ones in order, and a push is
dropped exactly when 127 are pending. -/
theorem keyboard_fifo {actions : List KeyboardAction} (hrun : initial.run actions = some s) :
    s.keyboard.kbdHead < kbdBufferSize ∧ s.keyboard.kbdTail < kbdBufferSize ∧
      s.keyboard.queue.length ≤ 127 ∧
      (∀ c, (s.keyboard.kbdPush c = s.keyboard ↔ s.keyboard.queue.length = 127) ∧
        ((s.keyboard.kbdPush c).kbdHead = s.keyboard.kbdHead ↔
          s.keyboard.queue.length = 127)) ∧
      s.accepted = s.returned ++ s.inHand ++ s.keyboard.queue := by
  have h : s.Fifo := fifo_initial.run hrun
  have hlt := s.keyboard.pending_lt
  rw [Keyboard.length_queue]
  refine ⟨h.range.head, h.range.tail, ?_, fun c ↦ ⟨Keyboard.kbdPush_eq_iff h.range, ?_, ?_⟩,
    h.flow⟩
  · simp only [kbdBufferSize] at hlt
    omega
  · intro hhead
    by_contra hne
    have hroom : s.keyboard.pending < 127 := by
      simp only [kbdBufferSize] at hlt
      omega
    exact (Keyboard.kbdPush_room h.range hroom).2.2.1 hhead
  · intro hfull
    rw [Keyboard.kbdPush_full h.range hfull]

/-- A character comes in while another is being taken out. -/
theorem keyboard_fifo_overlap :
    ∃ s, initial.run [.push 97, .getchar, .readTail, .push 98, .readHead, .proceed, .proceed,
        .proceed, .push 99, .proceed, .proceed, .proceed] = some s ∧
      s.returned = [97] ∧ s.keyboard.queue = [98, 99] ∧
      s.accepted = s.returned ++ s.inHand ++ s.keyboard.queue := by
  refine ⟨_, rfl, rfl, rfl, ?_⟩
  exact (@keyboard_fifo _ [.push 97, .getchar, .readTail, .push 98, .readHead, .proceed, .proceed,
    .proceed, .push 99, .proceed, .proceed, .proceed] rfl).2.2.2.2

end KeyboardRun

end EclipseOS
