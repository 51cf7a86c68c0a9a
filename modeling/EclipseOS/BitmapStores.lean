import EclipseOS.PmmInit

/-!
# The bitmap in memory

The frame bitmap begins at `kernel_end`, in the memory in which the boot loader
has left the memory map and the modules.
-/

namespace EclipseOS

open LittleEndian

/-- Byte `x` of the bitmap gets a new value. -/
def Alters (x : ℕ) : BitmapWrite → Prop
  | .fill bytes => x < bytes
  | .set frame => x = frame / 8
  | .clear frame => x = frame / 8

namespace KernelImage

variable (img : KernelImage)

/-- `frame_bitmap`, as bytes. -/
def bitmap (mem : Image) : Page := fun o ↦ mem (img.kernelEnd + o)

/-- `frame_bitmap[i]`. -/
def bitmapWord (mem : Image) (i : ℕ) : BitVec 32 := BitVec.ofNat 32 (word (img.bitmap mem) i)

/-- Memory with another bitmap. -/
def putBitmap (mem : Image) (p : Page) : Image :=
  fun x ↦ if img.kernelEnd ≤ x then p (x - img.kernelEnd) else mem x

/-- `frame_bitmap[i] = v`. -/
def storeWord (mem : Image) (i : ℕ) (v : BitVec 32) : Image :=
  img.putBitmap mem (putWord (img.bitmap mem) i v.toNat)

/-- Memory after a write. -/
def store (mem : Image) : BitmapWrite → Image
  | .fill bytes => img.putBitmap mem fun o ↦ if o < bytes then 0xFF else img.bitmap mem o
  | .set frame =>
      img.storeWord mem (frame / 32) (img.bitmapWord mem (frame / 32) ||| 1#32 <<< (frame % 32))
  | .clear frame =>
      img.storeWord mem (frame / 32) (img.bitmapWord mem (frame / 32) &&& ~~~(1#32 <<< (frame % 32)))

/-- The `n` bytes at `a` keep their values in these writes. -/
def Spares (ws : List BitmapWrite) (a n : ℕ) : Prop :=
  ∀ w ∈ ws, ∀ o, Alters o w → ∀ i < n, (a + i) % 2 ^ 32 ≠ img.kernelEnd + o

variable {img} {mem : Image} {ws ws' : List BitmapWrite} {a n : ℕ}

@[simp] theorem bitmap_putBitmap (mem : Image) (p : Page) : img.bitmap (img.putBitmap mem p) = p := by
  funext o
  simp [bitmap, putBitmap]

theorem putBitmap_apply {p : Page} {x : ℕ}
    (h : ∀ o, x = img.kernelEnd + o → p o = img.bitmap mem o) : img.putBitmap mem p x = mem x := by
  rw [putBitmap]
  split
  · next hle =>
      have hx : x = img.kernelEnd + (x - img.kernelEnd) := by omega
      rw [h _ hx, bitmap, ← hx]
  · rfl

/-! ## Bytes -/

theorem testBit_byteOf (v : BitVec 32) (k i : ℕ) :
    (byteOf v.toNat k).toNat.testBit i = (decide (i < 8) && v.getLsbD (8 * k + i)) := by
  rw [toNat_byteOf, show (256 : ℕ) = 2 ^ 8 by norm_num, Nat.testBit_mod_two_pow,
    Nat.testBit_div_two_pow]
  rw [Nat.add_comm i, BitVec.getLsbD]

/-- Two words that agree on the bits of a byte have that byte in common. -/
theorem byteOf_eq {v w : BitVec 32} {k : ℕ}
    (h : ∀ i < 8, v.getLsbD (8 * k + i) = w.getLsbD (8 * k + i)) :
    byteOf v.toNat k = byteOf w.toNat k := by
  apply UInt8.toNat_inj.mp
  apply Nat.eq_of_testBit_eq
  intro i
  rw [testBit_byteOf, testBit_byteOf]
  by_cases hi : i < 8
  · rw [h i hi]
  · simp [hi]

/-- A new word leaves the bytes as they are whose bits it leaves. -/
theorem putWord_apply {p : Page} {i o : ℕ} {v : BitVec 32}
    (h : o / 4 = i → ∀ j < 8, v.getLsbD (8 * (o % 4) + j) =
      (BitVec.ofNat 32 (word p i)).getLsbD (8 * (o % 4) + j)) : putWord p i v.toNat o = p o := by
  by_cases ho : o / 4 = i
  · have hbyte := byteOf_eq (h ho)
    rw [BitVec.toNat_ofNat, Nat.mod_eq_of_lt (word_lt _ _)] at hbyte
    have hsame := congrFun (putWord_word p i) o
    simp only [putWord, ho, if_true] at hsame ⊢
    rw [hbyte, hsame]
  · exact putWord_apply_of_ne p _ ho

theorem getLsbD_set (v : BitVec 32) (frame i : ℕ) (h : i ≠ frame % 32) :
    (v ||| 1#32 <<< (frame % 32)).getLsbD i = v.getLsbD i := by
  rw [BitVec.getLsbD_or, BitVec.getLsbD_shiftLeft, BitVec.getLsbD_one]
  by_cases hi : i < frame % 32
  · simp [hi]
  · simp [show i - frame % 32 ≠ 0 by omega]

theorem getLsbD_clear (v : BitVec 32) (frame i : ℕ) (h : i ≠ frame % 32) :
    (v &&& ~~~(1#32 <<< (frame % 32))).getLsbD i = v.getLsbD i := by
  rw [BitVec.getLsbD_and, BitVec.getLsbD_not, BitVec.getLsbD_shiftLeft, BitVec.getLsbD_one]
  by_cases hlt : i < 32
  · by_cases hi : i < frame % 32
    · simp [hi, hlt]
    · simp [show i - frame % 32 ≠ 0 by omega, hlt]
  · simp [hlt, BitVec.getLsbD_of_ge v i (by omega)]

/-- A write changes the bytes it alters. -/
theorem store_apply {w : BitmapWrite} {x : ℕ} (h : ∀ o, Alters o w → x ≠ img.kernelEnd + o) :
    img.store mem w x = mem x := by
  cases w with
  | fill bytes =>
      rw [store]
      refine putBitmap_apply fun o ho ↦ ?_
      exact if_neg fun hlt ↦ h o hlt ho
  | set frame =>
      refine putBitmap_apply fun o ho ↦ putWord_apply fun hword j hj ↦ getLsbD_set _ _ _ ?_
      intro hbit
      exact h o (show o = frame / 8 by omega) ho
  | clear frame =>
      refine putBitmap_apply fun o ho ↦ putWord_apply fun hword j hj ↦ getLsbD_clear _ _ _ ?_
      intro hbit
      exact h o (show o = frame / 8 by omega) ho

theorem Spares.mono (h : img.Spares ws' a n) (hsub : ws ⊆ ws') : img.Spares ws a n :=
  fun w hw ↦ h w (hsub hw)

theorem Spares.foldl (h : img.Spares ws a n) {i : ℕ} (hi : i < n) :
    ws.foldl img.store mem ((a + i) % 2 ^ 32) = mem ((a + i) % 2 ^ 32) := by
  induction ws generalizing mem with
  | nil => rfl
  | cons w ws ih =>
      rw [List.foldl_cons, ih fun w' hw' ↦ h w' (List.mem_cons_of_mem _ hw')]
      exact store_apply fun o ho ↦ h w (List.mem_cons_self ..) o ho i hi

/-- A word among the bytes that are spared. -/
theorem Spares.u32 (h : img.Spares ws a n) (mem : Image) (i : ℕ) (hi : i + 4 ≤ n) :
    (ws.foldl img.store mem).u32 (a + i) = mem.u32 (a + i) := by
  have hbyte : ∀ j < 4, ws.foldl img.store mem ((a + i + j) % 2 ^ 32) = mem ((a + i + j) % 2 ^ 32) := by
    intro j hj
    rw [Nat.add_assoc]
    exact h.foldl (by omega)
  have h₀ := hbyte 0 (by norm_num)
  rw [Nat.add_zero] at h₀
  rw [Image.u32, Image.u32, h₀, hbyte 1 (by norm_num), hbyte 2 (by norm_num), hbyte 3 (by norm_num)]

/-- What lies below the image is spared. -/
theorem spares_of_below (h : a + n ≤ img.kernelEnd) (ws : List BitmapWrite) : img.Spares ws a n := by
  intro w _ o _ i hi
  have hend := img.end_le
  rw [Nat.mod_eq_of_lt (by omega)]
  omega

/-! ## Words -/

theorem bitmapWord_storeWord (mem : Image) (i j : ℕ) (v : BitVec 32) :
    img.bitmapWord (img.storeWord mem i v) j = Function.update (img.bitmapWord mem) i v j := by
  rw [bitmapWord, storeWord, bitmap_putBitmap]
  by_cases hj : j = i
  · subst hj
    rw [word_putWord_self, Function.update_self, Nat.mod_eq_of_lt v.isLt, BitVec.ofNat_toNat,
      BitVec.setWidth_eq]
  · rw [word_putWord_of_ne _ _ hj, Function.update_of_ne hj]
    rfl

/-- The bits of a word are those of its bytes. -/
theorem getLsbD_word (p : Page) (i : ℕ) {j : ℕ} (hj : j < 32) :
    (BitVec.ofNat 32 (word p i)).getLsbD j = (p (4 * i + j / 8)).toNat.testBit (j % 8) := by
  have hbyte := congrFun (putWord_word p i) (4 * i + j / 8)
  rw [putWord, if_pos (by omega), show (4 * i + j / 8) % 4 = j / 8 by omega] at hbyte
  have hword : (BitVec.ofNat 32 (word p i)).toNat = word p i := by
    rw [BitVec.toNat_ofNat, Nat.mod_eq_of_lt (word_lt _ _)]
  rw [← hbyte, ← hword, testBit_byteOf, Nat.div_add_mod, hword]
  simp [show j % 8 < 8 by omega]

/-- `memset` on the words of the bitmap. -/
theorem bitmapWord_fill (mem : Image) (bytes i : ℕ) : img.bitmapWord (img.store mem (.fill bytes)) i =
    img.bitmapWord mem i ||| BitVec.ofNat 32 (2 ^ (8 * bytes - 32 * i) - 1) := by
  apply BitVec.eq_of_getLsbD_eq
  intro j hj
  rw [BitVec.getLsbD_or, bitmapWord, bitmapWord, store, bitmap_putBitmap, getLsbD_word _ _ hj,
    getLsbD_word _ _ hj, BitVec.getLsbD_ofNat, Nat.testBit_two_pow_sub_one]
  by_cases hin : 4 * i + j / 8 < bytes
  · have hones : ∀ b < 8, (0xFF : UInt8).toNat.testBit b = true := by decide
    rw [if_pos hin, hones (j % 8) (by omega)]
    simp [hj, show j < 8 * bytes - 32 * i by omega]
  · simp [hin, show ¬ j < 8 * bytes - 32 * i by omega]

/-- The words in memory are those of the model with a bitmap of its own. -/
theorem bitmapWord_store {m : Machine} (hm : m.frameBitmap = img.bitmapWord mem) (w : BitmapWrite) :
    (m.applyWrite w).frameBitmap = img.bitmapWord (img.store mem w) := by
  cases w with
  | fill bytes =>
      funext i
      rw [bitmapWord_fill, ← hm]
      rfl
  | set frame =>
      funext i
      rw [store, bitmapWord_storeWord, ← hm]
      rfl
  | clear frame =>
      funext i
      rw [store, bitmapWord_storeWord, ← hm]
      rfl

theorem bitmapWord_foldl {m : Machine} (hm : m.frameBitmap = img.bitmapWord mem)
    (ws : List BitmapWrite) :
    (ws.foldl Machine.applyWrite m).frameBitmap = img.bitmapWord (ws.foldl img.store mem) := by
  induction ws generalizing m mem with
  | nil => exact hm
  | cons w ws ih => exact ih (bitmapWord_store hm w)

end KernelImage

end EclipseOS
