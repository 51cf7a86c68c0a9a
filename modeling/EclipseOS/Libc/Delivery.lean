import EclipseOS.Libc.HeapResults
import EclipseOS.SystemResults

/-!
# What a request delivers

A size goes through rounding to 8, the addition of a header, rounding to pages and
the sign of an increment, each in words of 32 bits.  Up to 2 GiB less 4112 bytes a
request is answered as it should be; above, only free blocks and refusals are.
-/

namespace EclipseOS

namespace Libc

open LittleEndian Segments

inductive Request
  | malloc (size : BitVec 32)
  | calloc (n size : BitVec 32)
  | realloc (ptr size : BitVec 32)

namespace Request

def op : Request → HeapOp
  | malloc size => .malloc size.toNat
  | calloc n size => .calloc n.toNat size.toNat
  | realloc ptr size => .realloc ptr.toNat size.toNat

/-- What is asked for, as a natural number. -/
def bytes : Request → ℕ
  | malloc size => size.toNat
  | calloc n size => n.toNat * size.toNat
  | realloc _ size => size.toNat

/-- The pointer is `NULL` or that of a block in use. -/
def Valid (bs : List Block) : Request → Prop
  | malloc _ => True
  | calloc _ _ => True
  | realloc ptr _ => ptr = 0 ∨ ∃ b ∈ bs, b.free = false ∧ ptr.toNat = b.addr + HDR

/-- `realloc(p, 0)`, which is `free(p)`. -/
def Releases : Request → Prop
  | malloc _ => False
  | calloc _ _ => False
  | realloc ptr size => ptr ≠ 0 ∧ size = 0

/-- No other block is asked for: the size is zero or overflows, or the block has room. -/
def Idle (bs : List Block) : Request → Prop
  | malloc size => size = 0
  | calloc n size => n.toNat * size.toNat = 0 ∨ 2 ^ 32 ≤ n.toNat * size.toNat
  | realloc ptr size => size = 0 ∨ ∃ b ∈ bs, ptr.toNat = b.addr + HDR ∧ size.toNat ≤ b.size

end Request

/-- The heap of a process: the blocks stand below the break, the kernel keeps the break
below the stack, and those old breaks are mistaken that the wrapper does not tell. -/
structure UserHeap (start : ℕ) (h : Heap) (bs : List Block) : Prop where
  stands : Stands start h bs
  limit : h.limit = USER_BRK_LIMIT
  brk : h.brk ≤ USER_BRK_LIMIT
  told : ∀ p, h.mistaken p = false ↔ Tells (checked (Answer.value p).ret) (.value p)

/-- `NULL` and nothing changed, or a block in use that is large enough, and only
positive increments. -/
structure Answered (h h' : Heap) (bs : List Block) (size r : ℕ) : Prop where
  asked : ∃ new, h'.asked = new ++ h.asked ∧ ∀ i ∈ new, 0 < i
  null : r = 0 → h'.brk = h.brk ∧ Linked (Header h'.mem) h'.head bs 0
  block : r ≠ 0 → ∃ bs', ∃ b ∈ bs', Linked (Header h'.mem) h'.head bs' 0 ∧ b.free = false ∧
    r = b.addr + HDR ∧ size ≤ b.size ∧ r + b.size ≤ h'.brk

/-- The request returns with an answer. -/
def Delivers (o : Request) (h : Heap) (bs : List Block) : Prop :=
  ∃ r h', o.op.run h = some (r, h') ∧ Answered h h' bs o.bytes r

/-- A block for `n` bytes can be had as it should be: a free block has room, or the
increment is positive and the old break below 2 GiB or `sbrk` refuses, or all wraps
around to one page and `sbrk` refuses that. -/
def Heap.Within (h : Heap) (bs : List Block) (n : ℕ) : Prop :=
  (∃ b ∈ bs, b.free = true ∧ (n + 7) / 8 * 8 ≤ b.size) ∨
    n ≤ 2 ^ 31 - 4112 ∧
      (h.brk < 2 ^ 31 ∨ h.Refuses (((n + 7) / 8 * 8 + HDR + 4095) / 4096 * 4096 : ℕ)) ∨
    2 ^ 32 - 16 < n ∧ h.Refuses 4096 ∧ (n ≤ 2 ^ 32 - 8 ∨ ∀ b ∈ bs, b.free = false)

def Request.Within (o : Request) (h : Heap) (bs : List Block) : Prop :=
  o.Idle bs ∨ h.Within bs o.bytes

variable {h h' h₁ : Heap} {start n r size : ℕ} {b : Block} {bs bs' : List Block} {o : Request}

/-! ## Sizes -/

/-- Where the increment is positive: up to 2 GiB less 4112 bytes, and where all wraps. -/
theorem increment_pos_iff (hn : n < 2 ^ 32) :
    0 < intptr (need (roundUp n)) ↔ n ≤ 2 ^ 31 - 4112 ∨ 2 ^ 32 - 16 < n := by
  rw [need_eq_mod, roundUp_eq_mod, HDR, intptr]
  split <;> omega

theorem increment_of_le (hn : n ≤ 2 ^ 31 - 4112) :
    intptr (need (roundUp n)) = (((n + 7) / 8 * 8 + HDR + 4095) / 4096 * 4096 : ℕ) := by
  have hround : roundUp n = (n + 7) / 8 * 8 := roundUp_eq (by omega)
  rw [Stands.need_eq (by omega), hround, intptr, if_pos (by rw [HDR]; omega)]

theorem increment_of_wraps (hn : n < 2 ^ 32) (hwraps : 2 ^ 32 - 16 < n) :
    intptr (need (roundUp n)) = 4096 := by
  rw [need_eq_mod, roundUp_eq_mod, HDR, intptr]
  split <;> omega

namespace UserHeap

variable (hu : UserHeap start h bs)

include hu

theorem mistaken_iff : h.mistaken h.brk = false ↔ h.brk < 2 ^ 31 :=
  (hu.told h.brk).trans (tells_value_iff h.brk)

theorem brk_pos : 0 < h.brk := hu.stands.pos.trans_le hu.stands.spaced.le

theorem size_le (hb : b ∈ bs) : b.size ≤ USER_BRK_LIMIT := by
  have hstop := (hu.stands.bounds hb).2
  have hbrk := hu.brk
  rw [Block.stop] at hstop
  omega

/-- In these words the condition is about what `malloc` computes. -/
theorem serves (hn : n < 2 ^ 32) (hw : h.Within bs n) : h.Serves bs n := by
  have hlimit : USER_BRK_LIMIT = 0xB0000000 := rfl
  have hHDR : HDR = 12 := rfl
  by_cases hfit : ∃ b ∈ bs, b.free = true ∧ roundUp n ≤ b.size
  · refine .inl ⟨?_, ?_, hfit⟩
    · obtain ⟨b, hb, hfree, -⟩ := hfit
      have hle : n ≤ 2 ^ 32 - 8 := by
        rcases hw with ⟨c, hc, -, hle⟩ | ⟨hle, -⟩ | ⟨-, -, hle | hnone⟩
        · have := hu.size_le hc
          omega
        · omega
        · exact hle
        · rw [hnone b hb] at hfree
          exact nomatch hfree
      rw [roundUp_eq hle]
      omega
    · obtain ⟨b, hb, -, hle⟩ := hfit
      have := hu.size_le hb
      omega
  · push Not at hfit
    refine .inr ⟨hfit, ?_⟩
    rcases hw with ⟨c, hc, hfree, hle⟩ | ⟨hle, hbrk | hrefuses⟩ | ⟨hwraps, hrefuses, -⟩
    · have hsize := hu.size_le hc
      have hlt := hfit c hc hfree
      rw [roundUp_eq (by omega)] at hlt
      omega
    · have hround : roundUp n = (n + 7) / 8 * 8 := roundUp_eq (by omega)
      exact .inr ⟨by omega, by omega, hu.mistaken_iff.mpr hbrk⟩
    · rw [increment_of_le hle]
      exact .inl hrefuses
    · rw [increment_of_wraps hn hwraps]
      exact .inl hrefuses

theorem findFree_spec (n : ℕ) :
    h.findFree n = some 0 ∧ (∀ b ∈ bs, b.free = true → b.size < n) ∨
      ∃ b ∈ bs, b.free = true ∧ n ≤ b.size ∧ h.findFree n = some b.addr := by
  rcases findFreeLoop_spec hu.stands.linked (fun b hb ↦ hu.stands.header_le hb) n TURNS
    hu.stands.length_lt with hnone | ⟨pre, b, post, hbs, hfree, hle, -, hfound⟩
  · exact .inl hnone
  · exact .inr ⟨b, by simp [hbs], hfree, hle, hfound⟩

/-- Where `find_free` fails, no free block has room. -/
theorem small_of_notFound (hnone : h.findFree n = some 0) : ∀ b ∈ bs, b.free = true → b.size < n := by
  rcases hu.findFree_spec n with ⟨-, hsmall⟩ | ⟨c, hc, -, -, hfound⟩
  · exact hsmall
  · have hstart := (hu.stands.bounds hc).1
    have hpos := hu.stands.pos
    have hzero := Option.some.inj (hnone.symm.trans hfound)
    omega

/-- The increments of a request that is answered. -/
theorem asked (hn : n < 2 ^ 32) (hw : n ≠ 0 → h.Within bs n) (hm : h.malloc n = some (r, h')) :
    ∃ new, h'.asked = new ++ h.asked ∧ ∀ i ∈ new, 0 < i := by
  by_cases hzero : n = 0
  · subst hzero
    obtain ⟨rfl, rfl⟩ := Prod.mk.inj (Option.some.inj hm)
    exact ⟨[], rfl, nofun⟩
  · rcases malloc_cases hzero hm with ⟨b, -, -, -, hsettled⟩ | ⟨hnone, hgrown, -⟩
    · exact ⟨[], hsettled.asked, nofun⟩
    · refine ⟨[_], hgrown.asked, fun i hi ↦ ?_⟩
      rw [List.mem_singleton.mp hi]
      apply (increment_pos_iff hn).mpr
      rcases hw hzero with ⟨b, hb, hfree, hle⟩ | ⟨hle, -⟩ | ⟨hwraps, -⟩
      · have hlimit : USER_BRK_LIMIT = 0xB0000000 := rfl
        have hsize := hu.size_le hb
        have hlt := hu.small_of_notFound hnone b hb hfree
        rw [roundUp_eq (by omega)] at hlt
        omega
      · exact .inl hle
      · exact .inr hwraps

/-- A request that leaves the break as it was when it fails, and asks `sbrk` for
positive increments only, is within the bounds. -/
theorem within (hn : n < 2 ^ 32) (hzero : n ≠ 0) (hm : h.malloc n = some (r, h'))
    (hasked : ∀ i, h'.asked = i :: h.asked → 0 < i) (hnull : r = 0 → h'.brk = h.brk)
    (hblock : r ≠ 0 → n ≤ h'.brk) : h.Within bs n := by
  have hlimit : USER_BRK_LIMIT = 0xB0000000 := rfl
  have hHDR : HDR = 12 := rfl
  rcases malloc_cases hzero hm with ⟨p, hne, hfound, rfl, hsettled⟩ |
    ⟨hnone, hgrown, hcases⟩
  · rcases hu.findFree_spec (roundUp n) with ⟨hnone, -⟩ | ⟨b, hb, hfree, hle, hfound'⟩
    · rw [hnone] at hfound
      exact absurd (Option.some.inj hfound).symm hne
    · obtain rfl := Option.some.inj (hfound.symm.trans hfound')
      have hstop := (hu.stands.bounds hb).2
      have hbrk := hu.brk
      rw [Block.stop] at hstop
      have hblock := hblock (by omega)
      rw [hsettled.brk] at hblock
      rw [roundUp_eq (by omega)] at hle
      exact .inl ⟨b, hb, hfree, hle⟩
  · have hband := (increment_pos_iff hn).mp (hasked _ hgrown.asked)
    have hpos := (increment_pos_iff hn).mpr hband
    rcases hcases with ⟨hstarves, rfl, -⟩ | ⟨hno, rfl⟩
    · have hbrk := hnull rfl
      have hrefuses : h.Refuses (intptr (need (roundUp n))) := by
        rcases hgrown.brk with ⟨-, hrefuses⟩ | ⟨-, hmoved, -⟩
        · exact hrefuses
        · omega
      rcases hband with hle | hwraps
      · rw [increment_of_le hle] at hrefuses
        exact .inr (.inl ⟨hle, .inr hrefuses⟩)
      · rw [increment_of_wraps hn hwraps] at hrefuses
        refine .inr (.inr ⟨hwraps, hrefuses, ?_⟩)
        by_cases hle : n ≤ 2 ^ 32 - 8
        · exact .inl hle
        · refine .inr fun b hb ↦ ?_
          rw [Bool.eq_false_iff]
          intro hfree
          have hlt := hu.small_of_notFound hnone b hb hfree
          have hround := roundUp_eq_mod n
          omega
    · have htold : h.brk < 2 ^ 31 := hu.mistaken_iff.mp (Bool.eq_false_iff.mpr fun hm ↦
        hno (.inr (.inl hm)))
      have hbrk := hu.brk_pos
      have hblock := hblock (by omega)
      have hle : h'.brk ≤ USER_BRK_LIMIT := by
        rw [← hu.limit]
        rcases hgrown.brk with ⟨-, hrefuses⟩ | ⟨-, -, hle⟩
        · exact absurd (.inl hrefuses) hno
        · exact hle
      rcases hband with hle | hwraps
      · exact .inr (.inl ⟨hle, .inl htold⟩)
      · omega

end UserHeap

/-! ## Answers -/

theorem Answered.of_refused (hu : UserHeap start h bs) (hr : Refused h h')
    (hasked : ∃ new, h'.asked = new ++ h.asked ∧ ∀ i ∈ new, 0 < i) : Answered h h' bs n 0 where
  asked := hasked
  null := fun _ ↦ ⟨hr.brk, (hr.stands hu.stands).linked⟩
  block := fun hne ↦ absurd rfl hne

theorem Answered.of_block (hs : Stands start h' bs') (hb : b ∈ bs') (hused : b.free = false)
    (hle : n ≤ b.size) (hasked : ∃ new, h'.asked = new ++ h.asked ∧ ∀ i ∈ new, 0 < i) :
    Answered h h' bs n (b.addr + HDR) where
  asked := hasked
  null := fun hzero ↦ absurd hzero (by rw [HDR]; omega)
  block := fun _ ↦ ⟨bs', b, hb, hs.linked, hused, rfl, hle, (hs.bounds hb).2⟩

/-- What an answer says of the increment and the break. -/
theorem Answered.bounds (ha : Answered h h' bs n r) :
    (∀ i, h'.asked = i :: h.asked → 0 < i) ∧ (r = 0 → h'.brk = h.brk) ∧ (r ≠ 0 → n ≤ h'.brk) := by
  refine ⟨fun i hi ↦ ?_, fun hzero ↦ (ha.null hzero).1, fun hne ↦ ?_⟩
  · obtain ⟨new, hnew, hpos⟩ := ha.asked
    have heq : new = [i] := List.append_cancel_right (hnew.symm.trans hi)
    exact hpos i (by rw [heq]; exact List.mem_singleton_self i)
  · obtain ⟨bs', b, -, -, -, -, hle, hbrk⟩ := ha.block hne
    omega

namespace UserHeap

variable (hu : UserHeap start h bs)

include hu

theorem malloc (hn : n < 2 ^ 32) (hw : n ≠ 0 → h.Within bs n) :
    ∃ r h', h.malloc n = some (r, h') ∧ Answered h h' bs n r := by
  rcases hu.stands.malloc fun hzero ↦ hu.serves hn (hw hzero) with
    ⟨h', hmalloc, hr⟩ | ⟨h', b, bs', hmalloc, -, ha⟩
  · exact ⟨0, h', hmalloc, .of_refused hu hr (hu.asked hn hw hmalloc)⟩
  · exact ⟨_, h', hmalloc, .of_block ha.stands ha.mem ha.used ha.fits (hu.asked hn hw hmalloc)⟩

theorem calloc {k : ℕ} (hn : k * n < 2 ^ 32) (hw : k * n ≠ 0 → h.Within bs (k * n)) :
    ∃ r h', h.calloc k n = some (r, h') ∧ Answered h h' bs (k * n) r := by
  have ho : ¬ Overflows k n := fun ho ↦ absurd (overflows_iff.mp ho) (not_le.mpr hn)
  have hasked {r : ℕ} {h' : Heap} (hcalloc : h.calloc k n = some (r, h')) :
      ∃ new, h'.asked = new ++ h.asked ∧ ∀ i ∈ new, 0 < i := by
    obtain ⟨h₁, hmalloc, hsettled, -⟩ := calloc_cases ho hcalloc
    rw [Nat.mod_eq_of_lt hn] at hmalloc
    rw [hsettled.asked]
    exact hu.asked hn hw hmalloc
  rcases hu.stands.calloc hn fun hzero ↦ hu.serves hn (hw hzero) with
    ⟨h', hcalloc, hr⟩ | ⟨h', b, bs', hcalloc, -, ha, -⟩
  · exact ⟨0, h', hcalloc, .of_refused hu hr (hasked hcalloc)⟩
  · exact ⟨_, h', hcalloc, .of_block ha.stands ha.mem ha.used ha.fits (hasked hcalloc)⟩

theorem realloc (hb : b ∈ bs) (hused : b.free = false) (hn : n < 2 ^ 32) (hzero : n ≠ 0)
    (hw : b.size < n → h.Within bs n) :
    ∃ r h', h.realloc (b.addr + HDR) n = some (r, h') ∧ Answered h h' bs n r := by
  have hne : b.addr + HDR ≠ 0 := by
    rw [HDR]
    omega
  have hasked {r : ℕ} {h' : Heap} (hrealloc : h.realloc (b.addr + HDR) n = some (r, h')) :
      ∃ new, h'.asked = new ++ h.asked ∧ ∀ i ∈ new, 0 < i := by
    obtain ⟨m, hm, ⟨-, -, rfl⟩ | ⟨hlt, h₁, hmalloc, hsettled⟩⟩ := realloc_cases hne hzero hrealloc
    · exact ⟨[], rfl, fun _ hi ↦ absurd hi List.not_mem_nil⟩
    · rw [hu.stands.ptr_eq hb, hu.stands.sizeOf_eq hb] at hm
      obtain rfl := Option.some.inj hm
      rw [hsettled.asked]
      exact hu.asked hn (fun _ ↦ hw hlt) hmalloc
  rcases hu.stands.realloc hb hused hzero fun hlt ↦ hu.serves hn (hw hlt) with
    ⟨hle, hrealloc⟩ | ⟨h', hrealloc, hr⟩ | ⟨h', b', bs', hrealloc, hm⟩
  · exact ⟨_, h, hrealloc, .of_block hu.stands hb hused hle (hasked hrealloc)⟩
  · exact ⟨0, h', hrealloc, .of_refused hu hr (hasked hrealloc)⟩
  · exact ⟨_, h', hrealloc, .of_block hm.stands hm.mem hm.used hm.fits (hasked hrealloc)⟩

/-- `free` leaves the break alone, and the block is a free one. -/
theorem release (hb : b ∈ bs) : ∃ h' bs', h.realloc (b.addr + HDR) 0 = some (0, h') ∧
    Settled h h' ∧ Stands start h' bs' ∧ ∃ c ∈ bs', c.addr = b.addr ∧ c.free = true ∧ b.size ≤ c.size := by
  obtain ⟨h', bs', hfree, hs, -, -, -, hc⟩ := hu.stands.free hb
  refine ⟨h', bs', ?_, settled_free hfree, hs, hc⟩
  rw [Heap.realloc, if_neg (by rw [HDR]; omega), if_pos rfl, hfree]
  rfl

/-- After it the block list is another one. -/
theorem release_linked (hb : b ∈ bs) (hused : b.free = false)
    (hr : h.realloc (b.addr + HDR) 0 = some (r, h')) : ¬ Linked (Header h'.mem) h'.head bs 0 := by
  intro hlinked
  obtain ⟨h₁, bs', hrealloc, -, hs, c, hc, haddr, hfree, -⟩ := hu.release hb
  obtain ⟨-, rfl⟩ := Prod.mk.inj (Option.some.inj (hr.symm.trans hrealloc))
  obtain ⟨pre, post, rfl⟩ := List.append_of_mem hb
  obtain ⟨pre', post', rfl⟩ := List.append_of_mem hc
  obtain ⟨q', hheader, -⟩ := hs.header
  obtain ⟨p, -, q, hb', -⟩ := linked_append.mp hlinked
  have hp := hb'.addr
  subst hp
  have hwords := hheader.words.free
  rw [haddr, hb'.words.free, hused, hfree] at hwords
  exact absurd (Option.some.inj hwords) (by decide)

end UserHeap

/-! ## Requests -/

/-- What `realloc(p, 0)` does instead. -/
def ReleasesBlock (o : Request) (h : Heap) : Prop :=
  ∃ h' bs', ∃ c ∈ bs', o.op.run h = some (0, h') ∧ h'.brk = h.brk ∧ h'.asked = h.asked ∧
    Linked (Header h'.mem) h'.head bs' 0 ∧ c.free = true ∧
    ∃ ptr, o = .realloc ptr 0 ∧ ptr.toNat = c.addr + HDR

theorem delivers_of_within (hu : UserHeap start h bs) (hv : o.Valid bs) (hw : o.Within h bs)
    (hno : ¬ o.Releases) : Delivers o h bs := by
  cases o with
  | malloc size =>
      refine hu.malloc size.isLt fun hzero ↦ hw.resolve_left fun hidle ↦ hzero ?_
      rw [hidle]
      rfl
  | calloc n size =>
      by_cases hlt : n.toNat * size.toNat < 2 ^ 32
      · refine hu.calloc hlt fun hzero ↦ hw.resolve_left ?_
        rintro (hidle | hidle)
        · exact hzero hidle
        · omega
      · refine ⟨0, h, calloc_of_overflows (overflows_iff.mpr (not_lt.mp hlt)), ?_⟩
        exact .of_refused hu ⟨rfl, rfl, rfl, rfl⟩ ⟨[], rfl, nofun⟩
  | realloc ptr size =>
      rcases hv with rfl | ⟨b, hb, hused, hptr⟩
      · refine hu.malloc size.isLt fun hzero ↦ hw.resolve_left ?_
        rintro (rfl | ⟨b, -, hptr, -⟩)
        · exact hzero rfl
        · rw [HDR] at hptr
          exact absurd hptr.symm (Nat.succ_ne_zero _)
      · have hne : ptr ≠ 0 := by
          rintro rfl
          rw [HDR] at hptr
          exact absurd hptr.symm (Nat.succ_ne_zero _)
        have hzero : size ≠ 0 := fun hzero ↦ hno ⟨hne, hzero⟩
        have hsize : size.toNat ≠ 0 := fun h ↦ hzero (BitVec.eq_of_toNat_eq h)
        obtain ⟨r, h', hrun, ha⟩ := hu.realloc hb hused size.isLt hsize fun hlt ↦ by
          refine hw.resolve_left ?_
          rintro (hidle | ⟨c, hc, hptr', hle⟩)
          · exact hzero hidle
          · obtain rfl := hu.stands.spaced.eq_of_lo_eq hb hc (by omega)
            omega
        rw [← hptr] at hrun
        exact ⟨r, h', hrun, ha⟩

theorem within_of_delivers (hu : UserHeap start h bs) (hv : o.Valid bs) (hd : Delivers o h bs) :
    ¬ o.Releases ∧ o.Within h bs := by
  obtain ⟨r, h', hrun, ha⟩ := hd
  obtain ⟨hasked, hnull, hblock⟩ := ha.bounds
  cases o with
  | malloc size =>
      refine ⟨id, ?_⟩
      by_cases hzero : size = 0
      · exact .inl hzero
      · have hsize : size.toNat ≠ 0 := fun h ↦ hzero (BitVec.eq_of_toNat_eq h)
        exact .inr (hu.within size.isLt hsize hrun hasked hnull hblock)
  | calloc n size =>
      refine ⟨id, or_iff_not_imp_left.mpr fun hidle ↦ ?_⟩
      have hidle : ¬ (n.toNat * size.toNat = 0 ∨ 2 ^ 32 ≤ n.toNat * size.toNat) := hidle
      rw [not_or, not_le] at hidle
      have ho : ¬ Overflows n.toNat size.toNat := fun ho ↦
        absurd (overflows_iff.mp ho) (not_le.mpr hidle.2)
      obtain ⟨h₁, hmalloc, hsettled, -⟩ := calloc_cases ho hrun
      rw [Nat.mod_eq_of_lt hidle.2] at hmalloc
      rw [hsettled.asked] at hasked
      rw [hsettled.brk] at hnull hblock
      exact hu.within hidle.2 hidle.1 hmalloc hasked hnull hblock
  | realloc ptr size =>
      rcases hv with rfl | ⟨b, hb, hused, hptr⟩
      · refine ⟨fun hrel ↦ hrel.1 rfl, ?_⟩
        by_cases hzero : size = 0
        · exact .inl (.inl hzero)
        · have hsize : size.toNat ≠ 0 := fun h ↦ hzero (BitVec.eq_of_toNat_eq h)
          exact .inr (hu.within size.isLt hsize hrun hasked hnull hblock)
      · have hrun : h.realloc ptr.toNat size.toNat = some (r, h') := hrun
        rw [hptr] at hrun
        have hne : b.addr + HDR ≠ 0 := by
          rw [HDR]
          omega
        by_cases hzero : size = 0
        · subst hzero
          obtain ⟨h₁, bs', hrel, -⟩ := hu.release hb
          obtain ⟨rfl, rfl⟩ := Prod.mk.inj (Option.some.inj (hrun.symm.trans hrel))
          exact absurd (ha.null rfl).2 (hu.release_linked hb hused hrel)
        · have hsize : size.toNat ≠ 0 := fun h ↦ hzero (BitVec.eq_of_toNat_eq h)
          refine ⟨fun hrel ↦ hzero hrel.2, ?_⟩
          obtain ⟨m, hm, ⟨hle, -, -⟩ | ⟨-, h₁, hmalloc, hsettled⟩⟩ := realloc_cases hne hsize hrun
          · rw [hu.stands.ptr_eq hb, hu.stands.sizeOf_eq hb] at hm
            obtain rfl := Option.some.inj hm
            exact .inl (.inr ⟨b, hb, hptr, hle⟩)
          · rw [hsettled.asked] at hasked
            rw [hsettled.brk] at hnull hblock
            exact .inr (hu.within size.isLt hsize hmalloc hasked hnull hblock)

/-- A request is answered as it should be within these bounds and nowhere else, apart
from `realloc(p, 0)`. -/
theorem delivers_iff (hu : UserHeap start h bs) (hv : o.Valid bs) :
    Delivers o h bs ↔ ¬ o.Releases ∧ o.Within h bs :=
  ⟨within_of_delivers hu hv, fun hw ↦ delivers_of_within hu hv hw.2 hw.1⟩

theorem releasesBlock_of_releases (hu : UserHeap start h bs) (hv : o.Valid bs) (hr : o.Releases) :
    ReleasesBlock o h := by
  cases o with
  | malloc size => exact hr.elim
  | calloc n size => exact hr.elim
  | realloc ptr size =>
      obtain ⟨hne, rfl⟩ := hr
      obtain ⟨b, hb, -, hptr⟩ := hv.resolve_left hne
      obtain ⟨h', bs', hrun, hsettled, hs, c, hc, haddr, hfree, -⟩ := hu.release hb
      refine ⟨h', bs', c, hc, ?_, hsettled.brk, hsettled.asked, hs.linked, hfree, ptr, rfl, ?_⟩
      · rw [← hptr] at hrun
        exact hrun
      · rw [hptr, haddr]

/-- A process with its break at 4096 and no block. -/
def freshHeap : Heap where
  mem := fun _ ↦ none
  head := 0
  brk := 0x1000
  sbrks := 0
  asked := []
  limit := USER_BRK_LIMIT
  refuse := fun _ ↦ false
  mistaken := fun p ↦ decide (2 ^ 31 ≤ p)
  fresh := fun _ ↦ 0
  limit_le := by decide

theorem freshHeap_user : UserHeap 0x1000 freshHeap [] where
  stands := ⟨by decide, by decide, nofun, le_rfl, rfl⟩
  limit := rfl
  brk := by decide
  told := fun p ↦ by
    rw [tells_value_iff]
    change decide (2 ^ 31 ≤ p) = false ↔ p < 2 ^ 31
    rw [decide_eq_false_iff_not, not_le]

/-- A page that is one block in use. -/
def usedHeap : Heap where
  mem := fun a ↦
    if a < 0x2000 then some (if a = 0x1000 then 0xF4 else if a = 0x1001 then 0x0F else 0) else none
  head := 0x1000
  brk := 0x2000
  sbrks := 1
  asked := [4096]
  limit := USER_BRK_LIMIT
  refuse := fun _ ↦ false
  mistaken := fun p ↦ decide (2 ^ 31 ≤ p)
  fresh := fun _ ↦ 0
  limit_le := by decide

theorem usedHeap_user : UserHeap 0x1000 usedHeap [⟨0x1000, 0xFF4, false⟩] where
  stands := by
    have hend : (⟨0x1000, 0xFF4, false⟩ : Block).stop ≤ usedHeap.brk := by decide
    refine ⟨by decide, by decide, fun b hb a ha ↦ ?_, ⟨le_rfl, by decide, hend⟩,
      0, ⟨rfl, by decide, by decide, by decide, by decide⟩, rfl⟩
    rw [List.mem_singleton.mp hb] at ha
    have hlt : a < 0x2000 := ha.2
    change (if a < 0x2000 then some _ else none) ≠ none
    rw [if_pos hlt]
    exact Option.some_ne_none _
  limit := rfl
  brk := by decide
  told := freshHeap_user.told

end Libc

end EclipseOS
