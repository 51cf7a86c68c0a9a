import EclipseOS.Libc.HeapSteps

/-!
# Calls of the heap

What `malloc`, `free`, `calloc` and `realloc` do to the block list, and that they
leave the payloads of the other blocks in use alone.
-/

namespace EclipseOS

namespace Libc

open LittleEndian Segments

variable {h h' : Heap} {start n size : ℕ} {b c : Block} {bs bs' pre post : List Block}

/-- Nothing was written into the payloads of the blocks in use. -/
def Untouched (h h' : Heap) (bs : List Block) : Prop :=
  ∀ c ∈ bs, c.free = false → ∀ a ∈ Set.Ico (c.addr + HDR) c.stop, h'.mem a = h.mem a

/-- What `malloc` makes of a size. -/
def roundUp (size : ℕ) : ℕ := ((size + 7) % 2 ^ 32) &&& 0xFFFFFFF8

/-- A request that is served or refused: a free block has room, or none has and the
kernel refuses, or else the rounded size is right, the increment is positive and the
old break is told. -/
def Heap.Serves (h : Heap) (bs : List Block) (size : ℕ) : Prop :=
  (size ≤ roundUp size ∧ roundUp size + HDR + 8 < 2 ^ 32 ∧
      ∃ b ∈ bs, b.free = true ∧ roundUp size ≤ b.size) ∨
    (∀ b ∈ bs, b.free = true → b.size < roundUp size) ∧
      (h.Refuses (intptr (need (roundUp size))) ∨
        size ≤ roundUp size ∧ roundUp size ≤ 2 ^ 31 - 4112 ∧ h.mistaken h.brk = false)

/-- The block at `r` is new, the blocks that were in use are as they were. -/
structure Allocated (start : ℕ) (h h' : Heap) (bs bs' : List Block) (b : Block) (n : ℕ) : Prop where
  stands : Stands start h' bs'
  tiles : Tiles Block.addr Block.stop start bs h.brk → Tiles Block.addr Block.stop start bs' h'.brk
  told : h'.mistaken = h.mistaken
  mem : b ∈ bs'
  used : b.free = false
  fits : n ≤ b.size
  kept : ∀ c ∈ bs, c.free = false → c ∈ bs' ∧ c.addr ≠ b.addr
  untouched : Untouched h h' bs

/-- Nothing but the record of calls changed. -/
structure Refused (h h' : Heap) : Prop where
  mem : h'.mem = h.mem
  head : h'.head = h.head
  brk : h'.brk = h.brk
  told : h'.mistaken = h.mistaken

theorem Refused.stands (hr : Refused h h') (hh : Stands start h bs) : Stands start h' bs where
  pos := hh.pos
  bounded := hr.brk ▸ hh.bounded
  defined := hr.mem ▸ hh.defined
  spaced := hr.brk ▸ hh.spaced
  linked := hr.mem ▸ hr.head ▸ hh.linked

theorem malloc_eq (hsize : size ≠ 0) : h.malloc size = (do
    let b ← h.findFree (roundUp size)
    if b ≠ 0 then do
      let h ← h.split b (roundUp size)
      let h ← h.setFree b 0
      some ((b + HDR) % 2 ^ 32, h)
    else do
      let (b, h) ← h.grow (roundUp size)
      if b = 0 then some (0, h)
      else do
        let h ← h.split b (roundUp size)
        some ((b + HDR) % 2 ^ 32, h)) := by
  rw [Heap.malloc, if_neg hsize]
  rfl

theorem roundUp_eq_mod (size : ℕ) : roundUp size = (size + 7) % 2 ^ 32 / 8 * 8 :=
  and_eight_mask (Nat.mod_lt _ (by norm_num))

theorem roundUp_eq (hsize : size ≤ 2 ^ 32 - 8) : roundUp size = (size + 7) / 8 * 8 := by
  rw [roundUp_eq_mod, Nat.mod_eq_of_lt (by omega)]

/-- Small requests are served or refused where no old break is mistaken. -/
theorem Heap.serves_of_told (hsize : size ≤ 2 ^ 31 - 4112) (htold : h.mistaken h.brk = false) :
    h.Serves bs size := by
  have hround : roundUp size = (size + 7) / 8 * 8 := roundUp_eq (by omega)
  by_cases hfit : ∃ b ∈ bs, b.free = true ∧ roundUp size ≤ b.size
  · exact .inl ⟨by omega, by rw [HDR]; omega, hfit⟩
  · push Not at hfit
    exact .inr ⟨hfit, .inr ⟨by omega, by omega, htold⟩⟩

namespace Stands

/-- A free block is cut to size and taken. -/
theorem reuse (hh : Stands start h (pre ++ b :: post)) (hfree : b.free = true) (hn : n + HDR + 8 < 2 ^ 32)
    (hfits : n ≤ b.size) : ∃ h₁ h' bs' b', h.split b.addr n = some h₁ ∧
      h₁.setFree b.addr 0 = some h' ∧ b'.addr = b.addr ∧
      Allocated start h h' (pre ++ b :: post) bs' b' n := by
  obtain ⟨h₁, hsplit, honly₁, hh₁⟩ := hh.split hn
  obtain ⟨h', hset, honly', hh'⟩ := hh₁.setFree false
  rw [Block.shrunk_addr] at hset honly'
  refine ⟨h₁, h', _, { b.shrunk n with free := false }, hsplit, hset, Block.shrunk_addr, hh',
    fun ht ↦ ?_, ?_, by simp, rfl, Block.le_shrunk hfits, ?_, ?_⟩
  · rw [honly'.brk, honly₁.brk]
    have hsplit := ht.replace_one fun a e ↦ Block.tiles_split n
    exact hsplit.replace_one fun a e ↦ Block.tiles_free false
  · rw [honly'.mistaken, honly₁.mistaken]
  · intro c hc hused
    have hne : c ≠ b := by
      rintro rfl
      rw [hfree] at hused
      exact nomatch hused
    have hb : b ∈ pre ++ b :: post := by simp
    refine ⟨?_, fun heq ↦ hne (hh.spaced.eq_of_lo_eq hc hb (heq.trans Block.shrunk_addr))⟩
    simp only [List.mem_append, List.mem_cons] at hc ⊢
    rcases hc with hc | hc | hc
    · exact .inl hc
    · exact absurd hc hne
    · exact .inr (.inr (.inr hc))
  · intro c hc hused a ha
    have hb : b ∈ pre ++ b :: post := by simp
    have hout : a ∉ Set.Ico b.addr b.stop := by
      intro hmem
      have h₁ := ha.1
      have h₂ := ha.2
      have h₃ := hmem.1
      have h₄ := hmem.2
      rcases hh.spaced.apart hc hb with rfl | hle | hle
      · rw [hfree] at hused
        exact nomatch hused
      · omega
      · omega
    rw [honly'.kept a fun hmem ↦ hout ⟨hmem.1, Nat.lt_of_lt_of_le hmem.2 (Nat.le_add_right _ _)⟩,
      honly₁.kept a hout]

/-- A new block at the end is cut to size. -/
theorem extend (hh : Stands start h bs) (hn : n ≤ 2 ^ 31 - 4112)
    (hr : ¬ h.Refuses (intptr (need n))) (htold : h.mistaken h.brk = false) :
    ∃ (h₁ h' : Heap) (b b' : Block) (bs' : List Block), h.grow n = some (b.addr, h₁) ∧
      b.addr ≠ 0 ∧ h₁.split b.addr n = some h' ∧ b'.addr = b.addr ∧
        Allocated start h h' bs bs' b' n := by
  have hHDR : HDR = 12 := rfl
  obtain ⟨h₁, b, hgrow, hne, hfree, hfits, htold₁, hh₁, htiles, hkept⟩ := hh.grow hn hr htold
  obtain ⟨h', hsplit, honly, hh'⟩ := hh₁.split (n := n) (by omega)
  refine ⟨h₁, h', b, b.shrunk n, _, hgrow, hne, hsplit, Block.shrunk_addr, hh', fun ht ↦ ?_, ?_,
    by simp, ?_, Block.le_shrunk hfits, ?_, ?_⟩
  · rw [honly.brk]
    exact (htiles ht).replace_one fun a e ↦ Block.tiles_split n
  · rw [honly.mistaken, htold₁]
  · rw [Block.shrunk_free, hfree]
  · intro c hc _
    have hbefore := (List.pairwise_append.mp hh₁.spaced.pairwise).2.2 c hc b (by simp)
    rw [Block.stop] at hbefore
    rw [Block.shrunk_addr]
    exact ⟨List.mem_append_left _ hc, by omega⟩
  · intro c hc _ a ha
    have hbefore := (List.pairwise_append.mp hh₁.spaced.pairwise).2.2 c hc b (by simp)
    rw [honly.kept a fun hmem ↦ ?_, hkept c hc a ha]
    have h₁ := ha.2
    have h₂ := hmem.1
    omega

theorem malloc (hh : Stands start h bs) (hserves : size ≠ 0 → h.Serves bs size) :
    (∃ h', h.malloc size = some (0, h') ∧ Refused h h') ∨
      ∃ h' b bs', h.malloc size = some (b.addr + HDR, h') ∧ 0 < size ∧
        Allocated start h h' bs bs' b size := by
  have hHDR : HDR = 12 := rfl
  by_cases hzero : size = 0
  · refine .inl ⟨h, ?_, rfl, rfl, rfl, rfl⟩
    rw [Heap.malloc, if_pos hzero]
  · have hserves := hserves hzero
    have hresult (b : Block) (bs' : List Block) (h' : Heap) (hle : size ≤ roundUp size)
        (ha : Allocated start h h' bs bs' b (roundUp size)) :
        (b.addr + HDR) % 2 ^ 32 = b.addr + HDR ∧ Allocated start h h' bs bs' b size := by
      have hstop := (ha.stands.bounds ha.mem).2
      have hbounded := ha.stands.bounded
      have hfits := ha.fits
      rw [Block.stop] at hstop
      exact ⟨Nat.mod_eq_of_lt (by omega), { ha with fits := hle.trans ha.fits }⟩
    rw [malloc_eq hzero]
    rcases findFreeLoop_spec hh.linked (fun b hb ↦ hh.header_le hb) (roundUp size) TURNS
      hh.length_lt with ⟨hnone, hsmall⟩ | ⟨pre, b, post, rfl, hfree, hfits, hne, hfound⟩
    · have hfree : h.findFree (roundUp size) = some 0 := hnone
      rw [hfree, Option.bind_eq_bind, Option.bind_some, if_neg (by simp)]
      by_cases hrefuses : h.Refuses (intptr (need (roundUp size)))
      · rw [grow_of_refuses hrefuses]
        exact .inl ⟨_, rfl, rfl, rfl, rfl, rfl⟩
      · rcases hserves with ⟨-, -, b, hb, hbfree, hfits⟩ | ⟨-, hno | ⟨hle, hmax, htold⟩⟩
        · exact absurd hfits (not_le.mpr (hsmall b hb hbfree))
        · exact absurd hno hrefuses
        · obtain ⟨h₁, h', b, b', bs', hgrow, hne, hsplit, haddr, ha⟩ := hh.extend hmax hrefuses htold
          obtain ⟨hmod, ha'⟩ := hresult b' bs' h' hle ha
          refine .inr ⟨h', b', bs', ?_, Nat.pos_of_ne_zero hzero, ha'⟩
          rw [hgrow]
          simp only [Option.bind_eq_bind, Option.bind_some]
          rw [if_neg hne, hsplit, Option.bind_some, ← haddr, hmod]
    · have hfound : h.findFree (roundUp size) = some b.addr := hfound
      rcases hserves with ⟨hle, hn, -⟩ | ⟨hsmall, -⟩
      · obtain ⟨h₁, h', bs', b', hsplit, hset, haddr, ha⟩ := hh.reuse hfree hn hfits
        obtain ⟨hmod, ha'⟩ := hresult b' bs' h' hle ha
        refine .inr ⟨h', b', bs', ?_, Nat.pos_of_ne_zero hzero, ha'⟩
        simp only [hfound, hsplit, hset, Option.bind_eq_bind, Option.bind_some]
        rw [if_pos hne, ← haddr, hmod]
      · exact absurd hfits (not_le.mpr (hsmall b (by simp) hfree))

theorem sizeOf_eq (hh : Stands start h bs) (hb : b ∈ bs) : h.sizeOf b.addr = some b.size := by
  obtain ⟨pre, post, rfl⟩ := List.append_of_mem hb
  obtain ⟨q, hwords, -⟩ := hh.header
  exact hwords.words.sizeOf (hh.header_le hb)

/-- From a payload back to its header. -/
theorem ptr_eq (hh : Stands start h bs) (hb : b ∈ bs) :
    (b.addr + HDR + 2 ^ 32 - HDR) % 2 ^ 32 = b.addr := by
  have hle := hh.header_le hb
  rw [HDR] at *
  omega

/-- `free` writes the header of its block only; the other blocks in use stay. -/
theorem free (hh : Stands start h bs) (hb : b ∈ bs) :
    ∃ h' bs', h.free (b.addr + HDR) = some h' ∧ Stands start h' bs' ∧
      (Tiles Block.addr Block.stop start bs h.brk →
        Tiles Block.addr Block.stop start bs' h'.brk) ∧
      Only h h' (Set.Ico b.addr (b.addr + HDR)) ∧
      (∀ c ∈ bs, c.free = false → c.addr ≠ b.addr → c ∈ bs') ∧
      ∃ c ∈ bs', c.addr = b.addr ∧ c.free = true ∧ b.size ≤ c.size := by
  have hHDR : HDR = 12 := rfl
  have hptr := hh.ptr_eq hb
  obtain ⟨pre, post, rfl⟩ := List.append_of_mem hb
  obtain ⟨h₁, hset, honly₁, hh₁⟩ := hh.setFree true
  obtain ⟨h', hloop, honly', hh'⟩ := hh₁.coalesce TURNS (by
    have hlength := hh.length_lt
    rw [List.length_append, List.length_cons] at hlength
    omega)
  obtain ⟨c, rest, habsorb, haddr, hfree, hle⟩ := Block.absorb_eq_cons { b with free := true } post
  refine ⟨h', _, ?_, hh', fun ht ↦ ?_, honly₁.trans honly', fun c hc hused hne ↦ ?_,
    c, by rw [habsorb]; simp, haddr, hfree, hle⟩
  · have hset : h.setFree b.addr 1 = some h₁ := hset
    rw [Heap.free, if_neg (by omega), hptr]
    simp only [hset, Option.bind_eq_bind, Option.bind_some]
    exact hloop
  · rw [honly'.brk, honly₁.brk]
    have hfree := ht.replace_one fun a e ↦ Block.tiles_free true
    exact hfree.replace_tail fun a ↦ Block.tiles_absorb
  · simp only [List.mem_append, List.mem_cons] at hc ⊢
    rcases hc with hc | rfl | hc
    · exact .inl hc
    · exact absurd rfl hne
    · exact .inr (Block.mem_absorb hc hused)

/-- Bytes of a payload may change. -/
theorem payload (hh : Stands start h bs) (hb : b ∈ bs)
    (honly : Only h h' (Set.Ico (b.addr + HDR) b.stop)) : Stands start h' bs := by
  refine ⟨hh.pos, honly.brk ▸ hh.bounded, fun c hc a ha ↦ honly.defined a (hh.defined c hc a ha),
    honly.brk ▸ hh.spaced, ?_⟩
  rw [honly.head]
  exact linked_congr hh.linked fun c hc a ha ↦
    honly.kept a fun hmem ↦ hh.payload_apart hb hc hmem ha

end Stands

/-! ## Bytes -/

theorem store8_spec {a : ℕ} (v : UInt8) (ha : h.mem a ≠ none) :
    ∃ h', h.store8 a v = some h' ∧ h'.mem a = some v ∧ Only h h' (Set.Ico a (a + 1)) := by
  obtain ⟨u, hu⟩ := Option.ne_none_iff_exists'.mp ha
  refine ⟨{ h with mem := Function.update h.mem a (some v) }, ?_, Function.update_self .., rfl,
    fun x hx ↦ ?_, fun x hx ↦ ?_⟩
  · rw [Heap.store8, hu]
    rfl
  · refine Function.update_of_ne ?_ _ _
    rintro rfl
    exact hx ⟨Nat.le_refl x, Nat.lt_succ_self x⟩
  · by_cases hxa : x = a
    · subst hxa
      simp
    · dsimp only
      rwa [Function.update_of_ne hxa]

theorem memset_spec (h : Heap) (dst n : ℕ) (v : UInt8)
    (hdef : ∀ a ∈ Set.Ico dst (dst + n), h.mem a ≠ none) :
    ∃ h', h.memset dst v n = some h' ∧ Only h h' (Set.Ico dst (dst + n)) ∧
      ∀ k < n, h'.mem (dst + k) = some v := by
  induction n generalizing h dst with
  | zero => exact ⟨h, rfl, Only.refl h _, fun k hk ↦ nomatch hk⟩
  | succ n ih =>
      obtain ⟨h₁, hstore, hv, honly₁⟩ := store8_spec v (hdef dst ⟨Nat.le_refl _, by omega⟩)
      obtain ⟨h', hset, honly, hall⟩ := ih h₁ (dst + 1) fun a ha ↦
        honly₁.defined a (hdef a ⟨by have := ha.1; omega, by have := ha.2; omega⟩)
      refine ⟨h', ?_, (honly₁.mono (Set.Ico_subset_Ico_right (by omega))).trans
        (honly.mono (Set.Ico_subset_Ico (by omega) (by omega))), fun k hk ↦ ?_⟩
      · rw [Heap.memset, hstore]
        exact hset
      · cases k with
        | zero =>
            rw [Nat.add_zero, honly.kept dst fun hmem ↦ by have := hmem.1; omega]
            exact hv
        | succ k =>
            rw [show dst + (k + 1) = dst + 1 + k by omega]
            exact hall k (by omega)

/-- `memcpy` between ranges that do not overlap. -/
theorem memcpy_spec (h : Heap) (dst src n : ℕ) (hdst : ∀ a ∈ Set.Ico dst (dst + n), h.mem a ≠ none)
    (hsrc : ∀ a ∈ Set.Ico src (src + n), h.mem a ≠ none) (hapart : dst + n ≤ src ∨ src + n ≤ dst) :
    ∃ h', h.memcpy dst src n = some h' ∧ Only h h' (Set.Ico dst (dst + n)) ∧
      ∀ k < n, h'.mem (dst + k) = h.mem (src + k) := by
  induction n generalizing h dst src with
  | zero => exact ⟨h, rfl, Only.refl h _, fun k hk ↦ nomatch hk⟩
  | succ n ih =>
      obtain ⟨v, hv⟩ := Option.ne_none_iff_exists'.mp (hsrc src ⟨Nat.le_refl _, by omega⟩)
      obtain ⟨h₁, hstore, hv₁, honly₁⟩ := store8_spec v (hdst dst ⟨Nat.le_refl _, by omega⟩)
      obtain ⟨h', hcopy, honly, hall⟩ := ih h₁ (dst + 1) (src + 1)
        (fun a ha ↦ honly₁.defined a (hdst a ⟨by have := ha.1; omega, by have := ha.2; omega⟩))
        (fun a ha ↦ honly₁.defined a (hsrc a ⟨by have := ha.1; omega, by have := ha.2; omega⟩))
        (by omega)
      refine ⟨h', ?_, (honly₁.mono (Set.Ico_subset_Ico_right (by omega))).trans
        (honly.mono (Set.Ico_subset_Ico (by omega) (by omega))), fun k hk ↦ ?_⟩
      · rw [Heap.memcpy, hv, Option.bind_eq_bind, Option.bind_some, hstore]
        exact hcopy
      · cases k with
        | zero =>
            rw [Nat.add_zero, Nat.add_zero, honly.kept dst fun hmem ↦ by have := hmem.1; omega,
              hv₁, hv]
        | succ k =>
            rw [show dst + (k + 1) = dst + 1 + k by omega, hall k (by omega),
              show src + (k + 1) = src + 1 + k by omega]
            refine honly₁.kept _ fun hmem ↦ ?_
            have h₁ := hmem.1
            have h₂ := hmem.2
            omega

/-- Writing into the new block. -/
theorem Allocated.payload (ha : Allocated start h h' bs bs' b n) {h'' : Heap}
    (honly : Only h' h'' (Set.Ico (b.addr + HDR) b.stop)) : Allocated start h h'' bs bs' b n := by
  refine { ha with
    stands := ha.stands.payload ha.mem honly
    tiles := fun ht ↦ honly.brk ▸ ha.tiles ht
    told := honly.mistaken.trans ha.told
    untouched := fun c hc hused a hmem ↦ ?_ }
  obtain ⟨hc', hne⟩ := ha.kept c hc hused
  rw [honly.kept a fun hin ↦ ?_, ha.untouched c hc hused a hmem]
  have h₁ := hmem.1
  have h₂ := hmem.2
  have h₃ := hin.1
  have h₄ := hin.2
  rcases ha.stands.spaced.apart hc' ha.mem with rfl | hle | hle
  · exact hne rfl
  · omega
  · omega

/-- The block at `b'` takes over from the block in use at `b`. -/
structure Moved (start : ℕ) (h h' : Heap) (bs bs' : List Block) (b b' : Block) (n : ℕ) : Prop where
  stands : Stands start h' bs'
  tiles : Tiles Block.addr Block.stop start bs h.brk → Tiles Block.addr Block.stop start bs' h'.brk
  told : h'.mistaken = h.mistaken
  mem : b' ∈ bs'
  used : b'.free = false
  fits : n ≤ b'.size
  kept : ∀ c ∈ bs, c.free = false → c.addr ≠ b.addr → c ∈ bs' ∧ c.addr ≠ b'.addr
  untouched : Untouched h h' bs
  larger : b.size < n
  copied : ∀ k < b.size, h'.mem (b'.addr + HDR + k) = h.mem (b.addr + HDR + k)

namespace Stands

theorem payload_defined (hh : Stands start h bs) (hb : b ∈ bs) :
    ∀ a ∈ Set.Ico (b.addr + HDR) (b.addr + HDR + b.size), h.mem a ≠ none := fun a ha ↦
  hh.defined b hb a ⟨(Nat.le_add_right _ _).trans ha.1, ha.2⟩

theorem calloc (hh : Stands start h bs) (hlt : n * size < 2 ^ 32)
    (hserves : n * size ≠ 0 → h.Serves bs (n * size)) :
    (∃ h', h.calloc n size = some (0, h') ∧ Refused h h') ∨
      ∃ h' b bs', h.calloc n size = some (b.addr + HDR, h') ∧ 0 < n * size ∧
        Allocated start h h' bs bs' b (n * size) ∧
        ∀ k < n * size, h'.mem (b.addr + HDR + k) = some 0 := by
  have hmod : n * size % 2 ^ 32 = n * size := Nat.mod_eq_of_lt hlt
  have hfits : ¬ (n ≠ 0 ∧ n * size / n ≠ size) := by
    rintro ⟨hn, hdiv⟩
    exact hdiv (Nat.mul_div_cancel_left size (Nat.pos_of_ne_zero hn))
  rw [Heap.calloc, hmod, if_neg hfits]
  rcases hh.malloc hserves with ⟨h', hmalloc, hrefused⟩ | ⟨h₁, b, bs', hmalloc, hpos, ha⟩
  · refine .inl ⟨h', ?_, hrefused⟩
    rw [hmalloc]
    rfl
  · obtain ⟨h', hset, honly, hzero⟩ := memset_spec h₁ (b.addr + HDR) (n * size) 0
      fun a hmem ↦ ha.stands.payload_defined ha.mem a
        ⟨hmem.1, Nat.lt_of_lt_of_le hmem.2 (Nat.add_le_add_left ha.fits _)⟩
    refine .inr ⟨h', b, bs', ?_, hpos, ha.payload (honly.mono ?_), hzero⟩
    · rw [hmalloc, Option.bind_eq_bind, Option.bind_some]
      dsimp only
      rw [if_pos (by rw [HDR]; omega), hset]
      rfl
    · exact Set.Ico_subset_Ico_right (Nat.add_le_add_left ha.fits _)

/-- `realloc` of a block in use keeps it, fails, or moves its bytes. -/
theorem realloc (hh : Stands start h bs) (hb : b ∈ bs) (hused : b.free = false) (hne : size ≠ 0)
    (hserves : b.size < size → h.Serves bs size) :
    size ≤ b.size ∧ h.realloc (b.addr + HDR) size = some (b.addr + HDR, h) ∨
      (∃ h', h.realloc (b.addr + HDR) size = some (0, h') ∧ Refused h h') ∨
      ∃ h' b' bs', h.realloc (b.addr + HDR) size = some (b'.addr + HDR, h') ∧
        Moved start h h' bs bs' b b' size := by
  have hHDR : HDR = 12 := rfl
  rw [Heap.realloc, if_neg (by omega), if_neg hne, hh.ptr_eq hb]
  dsimp only
  rw [hh.sizeOf_eq hb, Option.bind_eq_bind, Option.bind_some]
  by_cases hfits : size ≤ b.size
  · exact .inl ⟨hfits, if_pos hfits⟩
  · rw [if_neg hfits]
    refine .inr ?_
    rcases hh.malloc fun _ ↦ hserves (by omega) with
      ⟨h', hmalloc, hrefused⟩ | ⟨h₁, b', bs₁, hmalloc, -, ha⟩
    · refine .inl ⟨h', ?_, hrefused⟩
      rw [hmalloc]
      rfl
    · refine .inr ?_
      obtain ⟨hb₁, hapart⟩ := ha.kept b hb hused
      have hroom : b'.addr + HDR + b.size ≤ b'.stop := by
        have := ha.fits
        rw [Block.stop]
        omega
      obtain ⟨h₂, hcopy, honly₂, hcopied⟩ := memcpy_spec h₁ (b'.addr + HDR)
        (b.addr + HDR) b.size
        (fun a hmem ↦ ha.stands.payload_defined ha.mem a
          ⟨hmem.1, Nat.lt_of_lt_of_le hmem.2 hroom⟩)
        (ha.stands.payload_defined hb₁) (by
          rcases ha.stands.spaced.apart hb₁ ha.mem with heq | hle | hle
          · exact absurd (congrArg Block.addr heq) hapart
          · rw [Block.stop] at hle
            omega
          · omega)
      have ha₂ := ha.payload (honly₂.mono (Set.Ico_subset_Ico_right hroom))
      obtain ⟨h₃, bs₃, hfree, hh₃, htiles₃, honly₃, hkept₃, -⟩ := ha₂.stands.free hb₁
      refine ⟨h₃, b', bs₃, ?_, hh₃, fun ht ↦ htiles₃ (ha₂.tiles ht), honly₃.mistaken.trans ha₂.told,
        hkept₃ b' ha.mem ha.used (Ne.symm hapart), ha.used, ha.fits,
        fun c hc hc' hcb ↦ ?_, fun c hc hc' a hmem ↦ ?_, by omega, fun k hk ↦ ?_⟩
      · rw [hmalloc, Option.bind_eq_bind, Option.bind_some]
        dsimp only
        rw [if_pos (by omega), ha.stands.sizeOf_eq hb₁, Option.bind_some, hcopy,
          Option.bind_eq_bind, Option.bind_some, hfree, Option.bind_some]
      · obtain ⟨hc₁, hcb'⟩ := ha.kept c hc hc'
        exact ⟨hkept₃ c hc₁ hc' hcb, hcb'⟩
      · obtain ⟨hc₁, -⟩ := ha.kept c hc hc'
        rw [honly₃.kept a (ha₂.stands.payload_apart hc₁ hb₁ hmem), ha₂.untouched c hc hc' a hmem]
      · have hmem' : b'.addr + HDR + k ∈ Set.Ico (b'.addr + HDR) b'.stop := ⟨by omega, by omega⟩
        have hmem : b.addr + HDR + k ∈ Set.Ico (b.addr + HDR) b.stop :=
          ⟨by omega, by rw [Block.stop]; omega⟩
        rw [honly₃.kept _ (ha₂.stands.payload_apart ha₂.mem hb₁ hmem'), hcopied k hk,
          ha.untouched b hb hused _ hmem]

end Stands

end Libc

end EclipseOS
