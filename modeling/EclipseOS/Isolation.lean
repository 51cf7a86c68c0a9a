import EclipseOS.ForkSpace
import EclipseOS.KernelHeap
import EclipseOS.Sbrk
import EclipseOS.Turns
import EclipseOS.UserPage

/-!
# Two copies of one memory

What user code sees of a directory is a partial function from addresses to
bytes.  After a fork the parent's and the child's are the same function, and
from then on each changes by the writes of its own side alone, however the two
sides are interleaved.
-/

namespace EclipseOS

open LittleEndian

/-! ## Memories written by two sides -/

inductive Side
  | parent
  | child
  deriving DecidableEq

structure UserWrite where
  side : Side
  addr : ℕ
  byte : UInt8

namespace UserWrite

/-- The memory of one side after the writes, of which it sees its own. -/
def after (f : ℕ → Option UInt8) (side : Side) : List UserWrite → ℕ → Option UInt8
  | [] => f
  | w :: ws =>
      after (if w.side = side then Function.update f w.addr (some w.byte) else f) side ws

end UserWrite

namespace Machine

variable {m m' m'' : Machine} {B D E a d t o f F S va : ℕ} {L K : Set ℕ} {b : UInt8}

/-- What user code reads at `va` when the directory in frame `D` is loaded. -/
def userMem (m : Machine) (D va : ℕ) : Option UInt8 :=
  let m := m.pagingSwitchDirectory (D * PAGE_SIZE)
  if va < USER_LIMIT ∧ m.userAccessible va = true then m.load8 va else none

/-- A write by user code: a page fault unless both levels allow it. -/
def userStore (m : Machine) (D va : ℕ) (b : UInt8) : Option Machine :=
  let m := m.pagingSwitchDirectory (D * PAGE_SIZE)
  if va < USER_LIMIT ∧ m.userWritable va = true then m.store8 va b else none

theorem switch_dir (m : Machine) (D : ℕ) : (m.pagingSwitchDirectory (D * PAGE_SIZE)).dir = D :=
  Nat.mul_div_cancel D (by decide)

/-- Page `(d, t)` of `D` is open to writes of user code. -/
def WritableIn (m : Machine) (D d t : ℕ) : Prop := m.pde D d % 8 = 7 ∧ m.pte D d t % 8 = 7

theorem userMem_page (hd : d < 768) (ht : t < 1024) (ho : o < 4096) :
    m.userMem D (pageAddr d t + o) =
      if m.UserMapped D d t then (m.leaf D d t).map fun F ↦ m.mem F o else none := by
  have hlt : pageAddr d t + o < USER_LIMIT := by
    rw [pageAddr, USER_LIMIT]
    omega
  have hpage := userAccessible_page (m := m.pagingSwitchDirectory (D * PAGE_SIZE)) (d := d) (t := t)
    (o := o) (by omega) ht ho
  rw [switch_dir] at hpage
  rw [userMem]
  refine if_congr ⟨fun h ↦ hpage.mp h.2, fun h ↦ ⟨hlt, hpage.mpr h⟩⟩ ?_ rfl
  rw [load8, translate_page (by omega) ht ho, frameAt, switch_dir, Option.map_map]
  rfl

theorem userMem_eq_none (h : ¬ va < USER_LIMIT) : m.userMem D va = none :=
  if_neg fun hand ↦ h hand.1

theorem exists_userAddr (h : va < USER_LIMIT) :
    ∃ d t o, d < 768 ∧ t < 1024 ∧ o < 4096 ∧ va = pageAddr d t + o := by
  rw [USER_LIMIT] at h
  obtain ⟨d, t, o, hd, ht, ho, rfl⟩ := exists_pageAddr (show va < 2 ^ 32 by omega)
  refine ⟨d, t, o, ?_, ht, ho, rfl⟩
  rw [pageAddr] at h
  omega

/-- Two directories show the same bytes when their user pages do. -/
theorem userMem_congr (hmap : ∀ d t, d < 768 → t < 1024 → (m'.UserMapped E d t ↔ m.UserMapped D d t))
    (hmem : ∀ d t F F', d < 768 → t < 1024 → m.UserMapped D d t → m.leaf D d t = some F →
      m'.leaf E d t = some F' → ∀ o < 4096, m'.mem F' o = m.mem F o) :
    m'.userMem E = m.userMem D := by
  funext va
  by_cases hva : va < USER_LIMIT
  · obtain ⟨d, t, o, hd, ht, ho, rfl⟩ := exists_userAddr hva
    rw [userMem_page hd ht ho, userMem_page hd ht ho]
    by_cases hm : m.UserMapped D d t
    · have hm' := (hmap d t hd ht).mpr hm
      have hleaf := leaf_eq_some.mpr ⟨hm.1, hm.2.2.1, rfl⟩
      have hleaf' := leaf_eq_some.mpr ⟨hm'.1, hm'.2.2.1, rfl⟩
      rw [if_pos hm, if_pos hm', hleaf, hleaf', Option.map_some, Option.map_some,
        hmem d t _ _ hd ht hm hleaf hleaf' o ho]
    · rw [if_neg hm, if_neg fun h ↦ hm ((hmap d t hd ht).mp h)]
  · rw [userMem_eq_none hva, userMem_eq_none hva]

/-- The identity map is not for user code. -/
def LowKernel (m : Machine) (D : ℕ) : Prop := ∀ t < 1024, ¬ m.UserMapped D 0 t

theorem LowKernel.pos (h : m.LowKernel D) (ht : t < 1024) (hmap : m.UserMapped D d t) : 1 ≤ d := by
  rcases Nat.eq_zero_or_pos d with rfl | hpos
  · exact absurd hmap (h t ht)
  · exact hpos

theorem WritableIn.userMapped (h : m.WritableIn D d t) : m.UserMapped D d t :=
  ⟨by have := h.1; omega, and_user_ne_zero h.1, by have := h.2; omega, and_user_ne_zero h.2⟩

/-! ## One write -/

namespace Ledger

/-- The pages that user code reaches stay where they are when a page of a live
space changes. -/
theorem entry_setFrame (h : m.Ledger B L K) (hF : m.Holds L (.leaf D d t) F) (hE : E ∈ L) (p : Page)
    {i s : ℕ} (hi : i < 768) (hp : m.pde E i % 2 = 1) :
    (m.setFrame F p).pte E i s = m.pte E i s := by
  have hplain := h.leaf_plain hF
  have hpde := setFrame_pde (m := m) (fun heq : F = E ↦ hplain.1 (heq ▸ hE)) p i
  have hne : F ≠ m.pde E i / 4096 := by
    rcases Nat.eq_zero_or_pos i with rfl | hpos
    · have hzero : KernelEntry 0 := Or.inl rfl
      rw [h.shared E hE 0 hzero] at hp ⊢
      exact fun heq ↦ (h.used _ _ hF).2 (heq ▸ h.tables 0 hzero hp)
    · exact fun heq ↦ hplain.2 E hE i hpos hi hp heq.symm
  rw [pte, hpde, setFrame_mem_of_ne _ hne.symm, pte]

theorem userMapped_setFrame (h : m.Ledger B L K) (hF : m.Holds L (.leaf D d t) F) (hE : E ∈ L)
    (p : Page) {i s : ℕ} (hi : i < 768) :
    (m.setFrame F p).UserMapped E i s ↔ m.UserMapped E i s := by
  rw [UserMapped, UserMapped, setFrame_pde (fun heq : F = E ↦ (h.leaf_plain hF).1 (heq ▸ hE)) p i]
  refine and_congr_right fun hp ↦ ?_
  rw [h.entry_setFrame hF hE p hi hp]

theorem writableIn_setFrame (h : m.Ledger B L K) (hF : m.Holds L (.leaf D d t) F) (hE : E ∈ L)
    (p : Page) {i s : ℕ} (hi : i < 768) :
    (m.setFrame F p).WritableIn E i s ↔ m.WritableIn E i s := by
  rw [WritableIn, WritableIn, setFrame_pde (fun heq : F = E ↦ (h.leaf_plain hF).1 (heq ▸ hE)) p i]
  refine and_congr_right fun hp ↦ ?_
  rw [h.entry_setFrame hF hE p hi (by omega)]

end Ledger

/-- The spaces in `D` and `E` after a write through `D`. -/
structure Wrote (B : ℕ) (L K : Set ℕ) (D E va : ℕ) (b : UInt8) (m m' : Machine) : Prop where
  ledger : m'.Ledger B L K
  writable : ∀ X ∈ L, ∀ d t, d < 768 → (m'.WritableIn X d t ↔ m.WritableIn X d t)
  low : ∀ X ∈ L, m.LowKernel X → m'.LowKernel X
  own : m'.userMem D = Function.update (m.userMem D) va (some b)
  other : m'.userMem E = m.userMem E

/-- A write through one live directory is seen there and in no other. -/
theorem Ledger.userStore (h : m.Ledger B L K) (hD : D ∈ L) (hE : E ∈ L) (hne : E ≠ D)
    (hlow : m.LowKernel D) (hlow' : m.LowKernel E) (hd : d < 768) (ht : t < 1024) (ho : o < 4096)
    (hw : m.WritableIn D d t) (b : UInt8) : ∃ m', m.userStore D (pageAddr d t + o) b = some m' ∧
      Wrote B L K D E (pageAddr d t + o) b m m' := by
  have hmap := hw.userMapped
  have hpos := hlow.pos ht hmap
  set n := m.pagingSwitchDirectory (D * PAGE_SIZE) with hn
  have hled : n.Ledger B L K := h.switch hD
  have hdir : n.dir = D := switch_dir m D
  set F := m.pte D d t / 4096 with hF
  have hleaf : m.leaf D d t = some F := leaf_eq_some.mpr ⟨hmap.1, hmap.2.2.1, rfl⟩
  have hheld : n.Holds L (.leaf D d t) F := ⟨hD, hpos, hd, ht, hleaf⟩
  set m' := n.setFrame F (Function.update (n.mem F) o b) with hm'
  have hrun : m.userStore D (pageAddr d t + o) b = some m' := by
    have hlt : pageAddr d t + o < USER_LIMIT := by
      rw [pageAddr, USER_LIMIT]
      omega
    have hwritable : n.userWritable (pageAddr d t + o) = true := by
      rw [userWritable_page (by omega) ht ho, Writable, hdir]
      exact hw
    rw [Machine.userStore, ← hn, if_pos ⟨hlt, hwritable⟩]
    exact store8_page (by omega) ht ho (by rw [frameAt, hdir]; exact hleaf) b
  have hmem : ∀ f, f ≠ F → m'.mem f = m.mem f := fun f hf ↦ setFrame_mem_of_ne _ hf
  have hmapped : ∀ X ∈ L, ∀ i s, i < 768 → (m'.UserMapped X i s ↔ m.UserMapped X i s) :=
    fun X hX i s hi ↦ hled.userMapped_setFrame hheld hX _ hi
  have hleaf' : ∀ X ∈ L, ∀ i s, i < 768 → m.UserMapped X i s → m'.leaf X i s = m.leaf X i s := by
    intro X hX i s hi hmap'
    have hpte := hled.entry_setFrame (s := s) hheld hX (Function.update (n.mem F) o b) hi hmap'.1
    obtain ⟨h₁, -, h₂, -⟩ := (hmapped X hX i s hi).mpr hmap'
    rw [leaf_eq_some.mpr ⟨hmap'.1, hmap'.2.2.1, rfl⟩, leaf_eq_some.mpr ⟨h₁, h₂, rfl⟩]
    exact congrArg (fun w ↦ some (w / 4096)) hpte
  have hother : ∀ X ∈ L, ∀ i s G, 1 ≤ i → i < 768 → s < 1024 → m.leaf X i s = some G →
      Owner.leaf X i s ≠ .leaf D d t → G ≠ F := by
    rintro X hX i s G hi₁ hi hs hG hown rfl
    exact hown (hled.unique _ _ _ ⟨hX, hi₁, hi, hs, hG⟩ hheld)
  refine ⟨m', hrun, hled.setFrame (hled.leaf_plain hheld) _, fun X hX i s hi ↦
    hled.writableIn_setFrame hheld hX _ hi, fun X hX hX' s hs hmap' ↦ ?_, ?_, ?_⟩
  · exact hX' s hs ((hmapped X hX 0 s (by norm_num)).mp hmap')
  · funext va
    by_cases hva : va < USER_LIMIT
    · obtain ⟨i, s, o', hi, hs, ho', rfl⟩ := exists_userAddr hva
      rw [Function.update_apply, userMem_page hi hs ho', userMem_page hi hs ho']
      by_cases hmap' : m.UserMapped D i s
      · have hG := leaf_eq_some.mpr ⟨hmap'.1, hmap'.2.2.1, rfl⟩
        rw [if_pos hmap', if_pos ((hmapped D hD i s hi).mpr hmap'), hleaf' D hD i s hi hmap', hG,
          Option.map_some, Option.map_some]
        by_cases hpage : i = d ∧ s = t
        · obtain ⟨rfl, rfl⟩ := hpage
          rw [← hF, hm', setFrame_mem_self, Function.update_apply]
          have hiff : pageAddr i s + o' = pageAddr i s + o ↔ o' = o := Nat.add_left_cancel_iff
          rw [if_congr hiff rfl rfl]
          split <;> rfl
        · have hown : Owner.leaf D i s ≠ .leaf D d t := by simpa using hpage
          have haddr : pageAddr i s + o' ≠ pageAddr d t + o := fun heq ↦ hpage (by
            obtain ⟨h₁, h₂, -⟩ := pageAddr_inj hs ho' ht ho heq
            exact ⟨h₁, h₂⟩)
          rw [hmem _ (hother D hD i s _ (hlow.pos hs hmap') hi hs hG hown), if_neg haddr]
      · have haddr : pageAddr i s + o' ≠ pageAddr d t + o := fun heq ↦ hmap' (by
          obtain ⟨rfl, rfl, -⟩ := pageAddr_inj hs ho' ht ho heq
          exact hmap)
        rw [if_neg hmap', if_neg fun h' ↦ hmap' ((hmapped D hD i s hi).mp h'), if_neg haddr]
    · have haddr : va ≠ pageAddr d t + o := by
        rintro rfl
        rw [pageAddr, USER_LIMIT] at hva
        omega
      rw [userMem_eq_none hva, Function.update_of_ne haddr, userMem_eq_none hva]
  · refine userMem_congr (fun i s hi _ ↦ hmapped E hE i s hi) fun i s G G' hi hs hmap' hG hG' o' _ ↦ ?_
    rw [hleaf' E hE i s hi hmap', hG, Option.some.injEq] at hG'
    subst hG'
    have hown : Owner.leaf E i s ≠ .leaf D d t := fun heq ↦ hne (Owner.leaf.inj heq).1
    rw [hmem G (hother E hE i s G (hlow'.pos hs hmap') hi hs hG hown)]

/-! ## Many writes -/

/-- User code may write at `va` when `D` is loaded. -/
def CanWrite (m : Machine) (D va : ℕ) : Prop :=
  va < USER_LIMIT ∧ (m.pagingSwitchDirectory (D * PAGE_SIZE)).userWritable va = true

theorem canWrite_page (hd : d < 768) (ht : t < 1024) (ho : o < 4096) :
    m.CanWrite D (pageAddr d t + o) ↔ m.WritableIn D d t := by
  have hlt : pageAddr d t + o < USER_LIMIT := by
    rw [pageAddr, USER_LIMIT]
    omega
  have hpage := userWritable_page (m := m.pagingSwitchDirectory (D * PAGE_SIZE)) (d := d) (t := t)
    (o := o) (by omega) ht ho
  rw [Writable, switch_dir] at hpage
  exact ⟨fun h ↦ hpage.mp h.2, fun h ↦ ⟨hlt, hpage.mpr h⟩⟩

/-- The directory of each side. -/
def dirOf (D E : ℕ) : Side → ℕ
  | .parent => D
  | .child => E

def userWrites (m : Machine) (D E : ℕ) (ws : List UserWrite) : Option Machine :=
  ws.foldlM (fun m w ↦ m.userStore (dirOf D E w.side) w.addr w.byte) m

/-- Two live spaces are two memories: a run of writes gets through if and only if
every write may be made at the start, and each side sees its own writes. -/
theorem Ledger.independent (h : m.Ledger B L K) (hD : D ∈ L) (hE : E ∈ L) (hne : D ≠ E)
    (hlow : m.LowKernel D) (hlow' : m.LowKernel E) (ws : List UserWrite) :
    ((m.userWrites D E ws).isSome = true ↔ ∀ w ∈ ws, m.CanWrite (dirOf D E w.side) w.addr) ∧
      ∀ m', m.userWrites D E ws = some m' →
        m'.userMem D = UserWrite.after (m.userMem D) .parent ws ∧
        m'.userMem E = UserWrite.after (m.userMem E) .child ws := by
  induction ws generalizing m with
  | nil =>
      refine ⟨by simp [userWrites], fun m' hrun ↦ ?_⟩
      obtain rfl := Option.some.inj hrun
      exact ⟨rfl, rfl⟩
  | cons w ws ih =>
      rw [userWrites, List.foldlM_cons, Option.bind_eq_bind]
      by_cases hw : m.CanWrite (dirOf D E w.side) w.addr
      · obtain ⟨d, t, o, hd, ht, ho, haddr⟩ := exists_userAddr hw.1
        have hpage : m.WritableIn (dirOf D E w.side) d t := by
          rwa [haddr, canWrite_page hd ht ho] at hw
        -- the side that writes and the side that does not
        have hstep : ∃ m₁, m.userStore (dirOf D E w.side) w.addr w.byte = some m₁ ∧
            m₁.Ledger B L K ∧ (∀ X ∈ L, ∀ d t, d < 768 → (m₁.WritableIn X d t ↔ m.WritableIn X d t)) ∧
            m₁.LowKernel D ∧ m₁.LowKernel E ∧
            m₁.userMem D = (if w.side = .parent then Function.update (m.userMem D) w.addr (some w.byte)
              else m.userMem D) ∧
            m₁.userMem E = (if w.side = .child then Function.update (m.userMem E) w.addr (some w.byte)
              else m.userMem E) := by
          rw [haddr]
          cases hside : w.side with
          | parent =>
              rw [hside] at hpage
              obtain ⟨m₁, hrun, hwrote⟩ := h.userStore hD hE hne.symm hlow hlow' hd ht ho hpage w.byte
              exact ⟨m₁, hrun, hwrote.ledger, hwrote.writable, hwrote.low D hD hlow,
                hwrote.low E hE hlow', hwrote.own, hwrote.other⟩
          | child =>
              rw [hside] at hpage
              obtain ⟨m₁, hrun, hwrote⟩ := h.userStore hE hD hne hlow' hlow hd ht ho hpage w.byte
              exact ⟨m₁, hrun, hwrote.ledger, hwrote.writable, hwrote.low D hD hlow,
                hwrote.low E hE hlow', hwrote.other, hwrote.own⟩
        obtain ⟨m₁, hrun, hled, hwritable, hl, hl', hown, hother⟩ := hstep
        have hsame : ∀ v : UserWrite, m₁.CanWrite (dirOf D E v.side) v.addr ↔
            m.CanWrite (dirOf D E v.side) v.addr := by
          intro v
          by_cases hva : v.addr < USER_LIMIT
          · obtain ⟨d, t, o, hd, ht, ho, heq⟩ := exists_userAddr hva
            have hX : dirOf D E v.side ∈ L := by
              cases v.side with
              | parent => exact hD
              | child => exact hE
            rw [heq, canWrite_page hd ht ho, canWrite_page hd ht ho]
            exact hwritable _ hX d t hd
          · exact ⟨fun h' ↦ absurd h'.1 hva, fun h' ↦ absurd h'.1 hva⟩
        obtain ⟨hiff, hmem⟩ := ih hled hl hl'
        rw [hrun, Option.bind_some]
        refine ⟨hiff.trans ?_, fun m' hrest ↦ ?_⟩
        · rw [List.forall_mem_cons]
          simp only [hsame]
          exact ⟨fun hall ↦ ⟨hw, hall⟩, fun hall ↦ hall.2⟩
        · obtain ⟨h₁, h₂⟩ := hmem m' hrest
          rw [h₁, h₂, hown, hother]
          exact ⟨rfl, rfl⟩
      · have hnone : m.userStore (dirOf D E w.side) w.addr w.byte = none := if_neg hw
        rw [hnone, Option.bind_none]
        refine ⟨iff_of_false Bool.false_ne_true fun hall ↦ hw (hall w (List.mem_cons_self ..)),
          fun m' hrest ↦ ?_⟩
        cases hrest

/-! ## The trap frame of a child -/

/-- Words stored in a page, and nothing else of it. -/
theorem storeWords_words (ws : List ℕ) {i : ℕ} (hd : d < 1024) (ht : t < 1024)
    (hF : m.frameAt d t = some F) (hdir : F ≠ m.dir) (htable : F ≠ m.pde m.dir d / 4096)
    (hi : i + ws.length ≤ 1024) :
    ∃ p, Kernel.storeWords m (pageAddr d t + 4 * i) ws = some (m.setFrame F p) ∧
      (∀ j (hj : j < ws.length), word p (i + j) = ws[j] % 2 ^ 32) ∧
      ∀ j < i, word p j = word (m.mem F) j := by
  induction ws generalizing m i with
  | nil =>
      exact ⟨m.mem F, by rw [setFrame_eq_self]; rfl, fun j hj ↦ absurd hj (Nat.not_lt_zero j),
        fun _ _ ↦ rfl⟩
  | cons w ws ih =>
      rw [List.length_cons] at hi
      have hframe : (m.setWord F i w).frameAt d t = some F := by
        rw [setWord, frameAt_setFrame hdir htable, hF]
      have htable' : F ≠ (m.setWord F i w).pde m.dir d / 4096 := by
        rw [setWord, setFrame_pde hdir]
        exact htable
      obtain ⟨p, hp, hwords, hbefore⟩ := ih (m := m.setWord F i w) (i := i + 1) hframe hdir htable'
        (by omega)
      refine ⟨p, ?_, fun j hj ↦ ?_, fun j hj ↦ ?_⟩
      · rw [Kernel.storeWords, store32_page hd ht (by omega) hF, Option.bind_eq_bind, Option.bind_some,
          show pageAddr d t + 4 * i + 4 = pageAddr d t + 4 * (i + 1) by omega, hp, setWord,
          setFrame_setFrame]
      · cases j with
        | zero =>
            rw [Nat.add_zero, hbefore i (by omega), word_setWord, if_pos ⟨rfl, rfl⟩]
            rfl
        | succ j =>
            rw [List.getElem_cons_succ, ← hwords j (by simpa using hj)]
            congr 1
            omega
      · rw [hbefore j (by omega), word_setWord, if_neg]
        rintro ⟨-, rfl⟩
        omega

theorem storeWords_before {addr : ℕ} {ws : List ℕ} (hrun : Kernel.storeWords m addr ws = some m') :
    m.Before m' := by
  induction ws generalizing m addr with
  | nil =>
      cases hrun
      exact Before.refl _
  | cons w ws ih =>
      obtain ⟨m₁, hstore, hrest⟩ := Option.bind_eq_some_iff.mp hrun
      exact (store32_stores hstore).before.trans (ih hrest)

/-- The words can only be stored where there is a page. -/
theorem storeWords_mapped {i : ℕ} {w : ℕ} {ws : List ℕ} (hd : d < 1024) (ht : t < 1024)
    (hi : i < 1024) (hrun : Kernel.storeWords m (pageAddr d t + 4 * i) (w :: ws) = some m') :
    ∃ F, m.frameAt d t = some F := by
  obtain ⟨m₁, hstore, -⟩ := Option.bind_eq_some_iff.mp hrun
  obtain ⟨p, hp, -⟩ := Option.bind_eq_some_iff.mp hstore
  rw [translate_page hd ht (by omega), Option.map_eq_some_iff] at hp
  obtain ⟨F, hF, -⟩ := hp
  exact ⟨F, hF⟩

/-- A frame of the kernel that is not the table of the identity map. -/
theorem Ledger.kernel_setFrame (h : m.Ledger B L K) (hF : F ∈ K) (hzero : m.pde B 0 / 4096 ≠ F)
    (p : Page) {X : ℕ} (hX : X ∈ L) (hd : d < 768) :
    ((m.setFrame F p).UserMapped X d t ↔ m.UserMapped X d t) ∧
      ((m.setFrame F p).WritableIn X d t ↔ m.WritableIn X d t) := by
  have hplain := h.kernel_plain hF
  have hpde := setFrame_pde (m := m) (fun heq : F = X ↦ hplain.1 (heq ▸ hX)) p d
  have hpte : m.pde X d % 2 = 1 → (m.setFrame F p).pte X d t = m.pte X d t := by
    intro hp
    have hne : m.pde X d / 4096 ≠ F := by
      rcases Nat.eq_zero_or_pos d with rfl | hpos
      · rwa [h.shared X hX 0 (Or.inl rfl)]
      · exact hplain.2 X hX d hpos hd hp
    rw [pte, hpde, setFrame_mem_of_ne _ hne, pte]
  constructor
  · rw [UserMapped, UserMapped, hpde]
    refine and_congr_right fun hp ↦ ?_
    rw [hpte hp]
  · rw [WritableIn, WritableIn, hpde]
    refine and_congr_right fun hp ↦ ?_
    rw [hpte (by omega)]

theorem Ledger.kernel_userMem (h : m.Ledger B L K) (hF : F ∈ K) (hzero : m.pde B 0 / 4096 ≠ F)
    (p : Page) {X : ℕ} (hX : X ∈ L) (hlow : m.LowKernel X) :
    (m.setFrame F p).userMem X = m.userMem X := by
  refine userMem_congr (fun d t hd _ ↦ (h.kernel_setFrame hF hzero p hX hd).1)
    fun d t G G' hd ht hmap hG hG' o _ ↦ ?_
  have hmap' := (h.kernel_setFrame hF hzero p hX hd).1.mpr hmap
  have hplain := h.kernel_plain hF
  have hpos := hlow.pos ht hmap
  have hpde := setFrame_pde (m := m) (fun heq : F = X ↦ hplain.1 (heq ▸ hX)) p d
  have hleaf : (m.setFrame F p).leaf X d t = m.leaf X d t :=
    leaf_congr hpde (by rw [setFrame_mem_of_ne _ (hplain.2 X hX d hpos hd hmap.1)])
  rw [hleaf, hG, Option.some.injEq] at hG'
  subst hG'
  have hne : G ≠ F := fun heq ↦ (h.used (.leaf X d t) G ⟨hX, hpos, hd, ht, hG⟩).2 (heq ▸ hF)
  rw [setFrame_mem_of_ne _ hne]

/-- The space of the parent as `process_fork` finds it: user pages lie in entries 1
to 767, and the pages of the heap, from which the stacks come, are the kernel's. -/
structure Forkable (K : Set ℕ) (m : Machine) : Prop where
  zero : m.frameTest 0 = true
  dir : m.dir ≠ 0
  low : ∀ t < 1024, m.copied m.dir 0 t = false
  user : ∀ d t, 1 ≤ d → d < 768 → t < 1024 → m.copied m.dir d t = true →
    m.pde m.dir d &&& PAGE_USER ≠ 0
  tables : ∀ d, 1 ≤ d → d < 768 → m.pde m.dir d % 2 = 1 → m.pde m.dir d % 4 = 3
  heap : ∀ t F, t < 1024 → m.leaf m.dir 768 t = some F → F ∈ K ∧
    ∀ i, i = 0 ∨ i = 768 → m.pde m.dir i / 4096 ≠ F

theorem Forkable.lowKernel (h : m.Forkable K) : m.LowKernel m.dir := by
  rintro t ht ⟨h₁, -, h₂, h₃⟩
  have hno := h.low t ht
  rw [copied_iff.mpr ⟨h₁, h₂, h₃⟩] at hno
  exact Bool.noConfusion hno

/-- The child's pages are open to writes where the parent's are. -/
theorem Forked.writable (hf : Forked m m' a S) (h : m.Forkable K)
    (hd : d < 768) (ht : t < 1024) : m'.WritableIn a d t ↔ m.WritableIn m.dir d t := by
  have huser : ∀ w : ℕ, w % 4 = 3 → w &&& PAGE_USER ≠ 0 → w % 8 = 7 := by
    intro w hw hu
    have hmod := Nat.and_mod_two_pow (a := w) (b := PAGE_USER) (n := 3)
    rw [(and_user_cases w).resolve_left hu] at hmod
    have hcases : w % 8 = 3 ∨ w % 8 = 7 := by omega
    rcases hcases with h3 | h7
    · rw [show w % 2 ^ 3 = 3 from h3] at hmod
      exact absurd hmod (by decide)
    · exact h7
  constructor
  · intro hw
    have hmap := (hf.mapped d t hd ht).mp hw.userMapped
    have hpos := h.lowKernel.pos ht hmap
    have hflags := hf.flags d t hd ht hmap
    have hpte := hw.2
    exact ⟨huser _ (h.tables d hpos hd hmap.1) hmap.2.1, by omega⟩
  · intro hw
    have hmap := hw.userMapped
    have hmap' := (hf.mapped d t hd ht).mpr hmap
    have hpos := h.lowKernel.pos ht hmap
    have hflags := hf.flags d t hd ht hmap
    have hpte := hw.2
    exact ⟨huser _ (hf.table d hpos hd hmap'.1) hmap'.2.1, by omega⟩

section Parent

variable (hf : Forked m m' a S) (h : m.Ledger B L K) (h' : m'.Ledger B (insert a L) (insert S K))
variable (ha : a ∈ m.free)
include hf h h' ha

omit h h' in
theorem Forked.kept (hused : m.frameTest F = true) (hdir : F ≠ m.dir)
    (hS : F ∉ insert S K ∨ F ∈ K ∧ F ≠ S) : m'.mem F = m.mem F := by
  refine hf.mem F hused (Ledger.free_ne ha hused).symm ?_ hdir
  rcases hS with hno | hne
  · exact fun heq ↦ hno (heq ▸ Set.mem_insert S K)
  · exact hne.2

/-- The tables of the parent, and the table of the heap. -/
theorem Forked.parentTable (hd : d ≤ 768) (hp : m.pde m.dir d % 2 = 1) :
    m'.mem (m.pde m.dir d / 4096) = m.mem (m.pde m.dir d / 4096) := by
  have hloaded : m.dir ∈ insert a L := Set.mem_insert_of_mem a h.loaded
  have hentry := hf.entry d (by omega)
  by_cases hcase : KernelEntry d
  · have hK : m.pde m.dir d / 4096 ∈ K := by
      rw [h.shared m.dir h.loaded d hcase] at hp ⊢
      exact h.tables d hcase hp
    have hslot := h'.slots d hcase (by omega)
    rw [← h'.shared m.dir hloaded d hcase, ← h'.shared m.dir hloaded 1022 (Or.inr (by norm_num)),
      hf.slot.2, hentry] at hslot
    exact hf.kept ha (h.kernel _ hK) (fun heq ↦ (h.dir_used h.loaded).2 (heq ▸ hK))
      (Or.inr ⟨hK, hslot hp hf.slot.1⟩)
  · rw [KernelEntry] at hcase
    have hheld : m.Holds L (.table m.dir d) _ := ⟨h.loaded, by omega, by omega, hp, rfl⟩
    have hheld' : m'.Holds (insert a L) (.table m.dir d) (m.pde m.dir d / 4096) :=
      ⟨hloaded, by omega, by omega, by rwa [hentry], by rw [hentry]⟩
    exact hf.kept ha (h.used _ _ hheld).1 (h.table_ne h.loaded h.loaded (by omega) (by omega) hp)
      (Or.inl (h'.used _ _ hheld').2)

theorem Forked.parentPte (hd : d ≤ 768) (hp : m.pde m.dir d % 2 = 1) :
    m'.pte m.dir d t = m.pte m.dir d t := by
  rw [pte, hf.entry d (by omega), hf.parentTable h h' ha hd hp, pte]

theorem Forked.parentMapped (hd : d < 768) : m'.UserMapped m.dir d t ↔ m.UserMapped m.dir d t := by
  rw [UserMapped, UserMapped, hf.entry d (by omega)]
  refine and_congr_right fun hp ↦ ?_
  rw [hf.parentPte h h' ha hd.le hp]

theorem Forked.parentWritable (hd : d < 768) : m'.WritableIn m.dir d t ↔ m.WritableIn m.dir d t := by
  rw [WritableIn, WritableIn, hf.entry d (by omega)]
  refine and_congr_right fun hp ↦ ?_
  rw [hf.parentPte h h' ha hd.le (by omega)]

theorem Forked.parentLeaf (hd : d ≤ 768) : m'.leaf m.dir d t = m.leaf m.dir d t := by
  by_cases hp : m.pde m.dir d % 2 = 1
  · exact leaf_congr (hf.entry d (by omega)) (by rw [hf.parentTable h h' ha hd hp])
  · rw [Machine.leaf, Machine.leaf, hf.entry d (by omega), if_pos (by omega), if_pos (by omega)]

/-- The parent sees what it saw, and the child the same. -/
theorem Forked.userMem (hk : m.Forkable K) : m'.userMem m.dir = m.userMem m.dir ∧
    m'.userMem a = m.userMem m.dir := by
  constructor
  · refine userMem_congr (fun d t hd _ ↦ hf.parentMapped h h' ha hd)
      fun d t F F' hd ht hmap hF hF' o _ ↦ ?_
    have hpos := hk.lowKernel.pos ht hmap
    have hheld : m.Holds L (.leaf m.dir d t) F := ⟨h.loaded, hpos, hd, ht, hF⟩
    have hheld' : m'.Holds (insert a L) (.leaf m.dir d t) F' :=
      ⟨Set.mem_insert_of_mem a h.loaded, hpos, hd, ht, hF'⟩
    rw [hf.parentLeaf h h' ha hd.le, hF, Option.some.injEq] at hF'
    subst hF'
    rw [hf.kept ha (h.used _ _ hheld).1
      (fun heq ↦ (h.leaf_plain hheld).1 (heq ▸ h.loaded)) (Or.inl (h'.used _ _ hheld').2)]
  · exact userMem_congr (fun d t hd ht ↦ hf.mapped d t hd ht) fun d t F F' hd ht hmap hF hF' o ho ↦
      hf.bytes d t F F' (hk.lowKernel.pos ht hmap) hd ht hF hF' o ho

end Parent

end Machine

namespace Kernel

open Machine

variable {k k' : Kernel} {B : ℕ} {L K : Set ℕ} {regs : Registers} {r : ℤ}

/-- What `process_fork` has made of the space `D` when it returns the pid of the child
in slot `c`, whose directory is `a`. -/
structure ForkedFrom (k k' : Kernel) (regs : Registers) (c : Fin MAX_PROCS) (a : ℕ) : Prop where
  fresh : a ∈ k.machine.free
  pageDir : (k'.procTable c).pageDir = a * PAGE_SIZE
  loaded : k'.machine.cr3 = k.machine.cr3
  writes : ∀ ws, (k'.machine.userWrites k.machine.dir a ws).isSome = true ↔
    ∀ w ∈ ws, k.machine.CanWrite k.machine.dir w.addr
  memories : ∀ ws m, k'.machine.userWrites k.machine.dir a ws = some m →
    m.userMem k.machine.dir = UserWrite.after (k.machine.userMem k.machine.dir) .parent ws ∧
    m.userMem a = UserWrite.after (k.machine.userMem k.machine.dir) .child ws
  context : (k'.procTable c).task.regs = { TaskRegs.zero with
    esp := (k'.procTable c).kernelStack - REGISTERS_SIZE
    eip := k.forkTrampoline
    eflags := 0x002
    cr3 := a * PAGE_SIZE }
  frame : ∀ i (hi : i < 16), k'.machine.load32 ((k'.procTable c).task.regs.esp + 4 * i) =
    some ({ regs with eax := 0 }.words[i] % 2 ^ 32)

/-- The frame lies at the end of a page of the heap. -/
theorem stackFrame_page (hheap : k.heap.Ready) {stack : ℕ} {heap : Kheap}
    (halloc : k.heap.kmallocAligned KSTACK_SIZE = (stack, heap)) (hstack : stack ≠ 0) :
    ∃ t < 256, (stack + KSTACK_SIZE) % 2 ^ 32 - REGISTERS_SIZE = pageAddr 768 t + 4 * 1008 := by
  have hstop := hheap.stop
  have hstart := hheap.start
  rw [KERNEL_HEAP_BASE] at hstart hstop
  rw [KERNEL_HEAP_SIZE] at hstop
  obtain ⟨-, hcase⟩ | ⟨hle, hcase⟩ := Kheap.kmallocAligned_cases hheap
  · exact absurd (Prod.mk.inj (halloc.symm.trans hcase)).1 hstack
  · obtain ⟨rfl, -⟩ := Prod.mk.inj (halloc.symm.trans hcase)
    rw [KSTACK_SIZE] at hle
    refine ⟨((k.heap.heapNext + 0xFFF) / 4096 * 4096 - 0xC0000000) / 4096, by omega, ?_⟩
    rw [pageAddr, KSTACK_SIZE, REGISTERS_SIZE]
    omega

/-- The context of the child. -/
theorem withChild_regs (c : Fin MAX_PROCS) (dir stack : ℕ) (heap : Kheap) (m : Machine) :
    ((k.withChild k.processCurrent c dir stack heap m).procTable c).task.regs =
      { TaskRegs.zero with
        esp := ((k.withChild k.processCurrent c dir stack heap m).procTable c).kernelStack -
          REGISTERS_SIZE
        eip := k.forkTrampoline
        eflags := 0x002
        cr3 := dir } := by
  have hstackTop : ((k.withChild k.processCurrent c dir stack heap m).procTable c).kernelStack =
      (stack + KSTACK_SIZE) % 2 ^ 32 := by
    simp [withChild_procTable, childEntry, forkedEntry, freshEntry]
  have htask : ((k.withChild k.processCurrent c dir stack heap m).task (.proc c)).regs =
      { TaskRegs.zero with
        esp := (stack + KSTACK_SIZE) % 2 ^ 32 - REGISTERS_SIZE
        eip := k.forkTrampoline
        eflags := 0x002
        cr3 := dir } := by
    rw [withChild, withForked, taskAdd_regs]
    simp [task, withFresh, forkedEntry, freshEntry]
  rw [hstackTop]
  exact htask

section Frame

variable {m : Machine} {a S t F : ℕ} (h : k.machine.Ledger B L K) (hk : k.machine.Forkable K)
variable (h' : m.Ledger B (insert a L) (insert S K)) (hf : Forked k.machine m a S)
variable (ha : a ∈ k.machine.free)
include h hk h' hf ha

/-- The page of the frame is the kernel's. -/
theorem stackFrame_kernel (ht : t < 1024) (hF : m.frameAt 768 t = some F) : F ∈ K ∧
    F ≠ m.dir ∧ F ≠ m.pde m.dir 768 / 4096 ∧ m.pde B 0 / 4096 ≠ F := by
  have hdir : m.dir = k.machine.dir := by rw [Machine.dir, hf.cr3, Machine.dir]
  have hleaf : k.machine.leaf k.machine.dir 768 t = some F := by
    rw [← hf.parentLeaf h h' ha le_rfl, ← hdir]
    exact hF
  obtain ⟨hFK, htable⟩ := hk.heap t F ht hleaf
  refine ⟨hFK, fun heq ↦ (h.dir_used h.loaded).2 (hdir ▸ heq ▸ hFK), ?_, ?_⟩
  · rw [hdir, hf.entry 768 (by norm_num)]
    exact (htable 768 (Or.inr rfl)).symm
  · rw [← h'.shared _ (Set.mem_insert_of_mem a h.loaded) 0 (Or.inl rfl), hf.entry 0 (by norm_num)]
    exact htable 0 (Or.inl rfl)

/-- The store of the frame leaves the two memories as they are, and which writes
are open to the two processes. -/
theorem stackFrame_isolated (hFK : F ∈ K) (hzero : m.pde B 0 / 4096 ≠ F) (p : Page) (ws : List UserWrite) :
    (((m.setFrame F p).userWrites k.machine.dir a ws).isSome = true ↔
      ∀ w ∈ ws, k.machine.CanWrite k.machine.dir w.addr) ∧
    ∀ n, (m.setFrame F p).userWrites k.machine.dir a ws = some n →
      n.userMem k.machine.dir = UserWrite.after (k.machine.userMem k.machine.dir) .parent ws ∧
      n.userMem a = UserWrite.after (k.machine.userMem k.machine.dir) .child ws := by
  have hF' : F ∈ insert S K := Set.mem_insert_of_mem S hFK
  have hD : k.machine.dir ∈ insert a L := Set.mem_insert_of_mem a h.loaded
  have ha' : a ∈ insert a L := Set.mem_insert a L
  have hne : k.machine.dir ≠ a := (Ledger.free_ne ha (h.dir_used h.loaded).1).symm
  have hled : (m.setFrame F p).Ledger B (insert a L) (insert S K) :=
    h'.setFrame (h'.kernel_plain hF') p
  have hlow : m.LowKernel k.machine.dir := fun s hs hmap ↦
    hk.lowKernel s hs ((hf.parentMapped h h' ha (by norm_num)).mp hmap)
  have hlow' : m.LowKernel a := fun s hs hmap ↦
    hk.lowKernel s hs ((hf.mapped 0 s (by norm_num) hs).mp hmap)
  have hkeep : ∀ X ∈ insert a L, m.LowKernel X → (m.setFrame F p).LowKernel X :=
    fun X hX hl s hs hmap ↦ hl s hs ((h'.kernel_setFrame hF' hzero p hX (by norm_num)).1.mp hmap)
  obtain ⟨hmem, hmem'⟩ := hf.userMem h h' ha hk
  have hwrite : ∀ w : UserWrite, (m.setFrame F p).CanWrite (dirOf k.machine.dir a w.side) w.addr ↔
      k.machine.CanWrite k.machine.dir w.addr := by
    intro w
    by_cases hva : w.addr < USER_LIMIT
    · obtain ⟨d, s, o, hd, hs, ho, heq⟩ := exists_userAddr hva
      rw [heq, canWrite_page hd hs ho, canWrite_page hd hs ho]
      cases w.side with
      | parent =>
          have hsame := (h'.kernel_setFrame (t := s) hF' hzero p hD hd).2
          exact hsame.trans (hf.parentWritable h h' ha hd)
      | child =>
          have hsame := (h'.kernel_setFrame (t := s) hF' hzero p ha' hd).2
          exact hsame.trans (hf.writable hk hd hs)
    · exact ⟨fun hc ↦ absurd hc.1 hva, fun hc ↦ absurd hc.1 hva⟩
  have hindep := hled.independent hD ha' hne (hkeep _ hD hlow) (hkeep a ha' hlow') ws
  refine ⟨hindep.1.trans (forall₂_congr fun w _ ↦ hwrite w), fun n hws ↦ ?_⟩
  have hboth := hindep.2 n hws
  rwa [h'.kernel_userMem hF' hzero p hD hlow, h'.kernel_userMem hF' hzero p ha' hlow', hmem,
    hmem'] at hboth

end Frame

/-- A fork that returns a pid and lost no allocation makes two memories of one. -/
theorem processFork_forkedFrom (h : k.machine.Ledger B L K) (hk : k.machine.Forkable K)
    (hheap : k.heap.Ready) (hrun : k.processFork regs = some (r, k')) (hpos : 0 < r)
    (hcalls : Call.alloc 0 ∉ k'.machine.calls) : ∃ c a S, k.freeSlot = some c ∧
      r = (k'.procTable c).pid ∧ k'.machine.Ledger B (insert a L) (insert S K) ∧
      ForkedFrom k k' regs c a := by
  obtain ⟨-, rfl, -⟩ | ⟨c, stack, heap, hslot, halloc, ⟨-, rfl, -⟩ | ⟨-, rfl, -⟩ |
    ⟨hstack, hr, dir, m, m', hspace, hstore, rfl⟩⟩ := processFork_cases hrun
  · exact absurd hpos (by decide)
  · exact absurd hpos (by decide)
  · exact absurd hpos (by decide)
  rw [withChild_machine] at hcalls
  have hbefore : m.Before m' := storeWords_before hstore
  obtain ⟨a, ha, S, rfl, h', hf⟩ := forkSpace_copies h hk.zero hk.dir hk.low hk.user hspace
    fun hmem ↦ hcalls (hbefore.mem hmem)
  obtain ⟨t, ht, haddr⟩ := stackFrame_page hheap halloc hstack
  rw [haddr] at hstore
  obtain ⟨F, hF⟩ := storeWords_mapped (by norm_num) (by omega) (by norm_num) hstore
  obtain ⟨hFK, hFdir, hFheap, hzero⟩ := stackFrame_kernel h hk h' hf ha (by omega) hF
  obtain ⟨p, hp, hwords, -⟩ := storeWords_words (i := 1008) { regs with eax := 0 }.words
    (by norm_num) (by omega) hF hFdir hFheap (by simp [Registers.words])
  obtain rfl := Option.some.inj (hstore.symm.trans hp)
  have hisolated := stackFrame_isolated h hk h' hf ha hFK hzero p
  have hcontext := withChild_regs (k := k) c (a * PAGE_SIZE) stack heap (m.setFrame F p)
  refine ⟨c, a, S, hslot, ?_, ?_, ha, ?_, ?_, fun ws ↦ ?_, fun ws n hws ↦ ?_, hcontext, fun i hi ↦ ?_⟩
  · simp [hr, withChild_procTable, childEntry, forkedEntry, freshEntry]
  · rw [withChild_machine]
    exact h'.setFrame (h'.kernel_plain (Set.mem_insert_of_mem S hFK)) p
  · simp [withChild_procTable, childEntry, forkedEntry]
  · rw [withChild_machine]
    exact hf.cr3
  · rw [withChild_machine]
    exact (hisolated ws).1
  · rw [withChild_machine] at hws
    exact (hisolated ws).2 n hws
  · have hesp : ((k.withChild k.processCurrent c (a * PAGE_SIZE) stack heap
        (m.setFrame F p)).procTable c).task.regs.esp = pageAddr 768 t + 4 * 1008 := by
      rw [hcontext, ← haddr]
      simp [withChild_procTable, childEntry, forkedEntry, freshEntry]
    rw [hesp, withChild_machine, Nat.add_assoc, ← Nat.mul_add,
      load32_page (by norm_num) (by omega) (by omega) (F := F)
        (by rw [frameAt_setFrame hFdir hFheap, hF]), setFrame_mem_self,
      hwords i (by simpa [Registers.words] using hi)]
    rfl

/-! ## Room for a child -/

theorem forkSpace_built {m m' : Machine} {dir : ℕ} (h : forkSpace m = some (.built dir, m')) :
    ∃ m₀ s, m.pagingNewDirectory = some (dir, m₀) ∧ dir ≠ 0 ∧ copyPages m₀ = some s ∧
      s.outOfSlots = false ∧ installPages s.machine dir s.copyList = some m' := by
  simp only [forkSpace, Option.bind_eq_bind, Option.bind_eq_some_iff] at h
  obtain ⟨⟨dir', m₀⟩, hnew, h⟩ := h
  split at h
  · cases h
  · next hne =>
    obtain ⟨s, hcopy, h⟩ := Option.bind_eq_some_iff.mp h
    split at h
    · obtain ⟨m₁, -, h⟩ := Option.bind_eq_some_iff.mp h
      cases h
    · next hout =>
      obtain ⟨m₁, hinstall, h⟩ := Option.bind_eq_some_iff.mp h
      cases h
      exact ⟨m₀, s, hnew, hne, hcopy, by simpa using hout, hinstall⟩

/-- With an entry, a stack, a space and the frame, `process_fork` returns the next pid. -/
theorem processFork_built (regs : Registers) {c : Fin MAX_PROCS} {dir stack : ℕ} {heap : Kheap}
    {m m' : Machine} (hslot : k.freeSlot = some c)
    (hheap : k.heap.kmallocAligned KSTACK_SIZE = (stack, heap)) (hstack : stack ≠ 0)
    (hspace : forkSpace k.machine = some (.built dir, m))
    (hstore : storeWords m ((stack + KSTACK_SIZE) % 2 ^ 32 - REGISTERS_SIZE)
      { regs with eax := 0 }.words = some m') :
    ∃ k', k.processFork regs = some (k.nextPid, k') ∧ k'.machine = m' := by
  have hne : k.processCurrent ≠ c := freeSlot_ne_processCurrent hslot
  obtain ⟨m₀, s, hnew, hdir, hcopy, hout, hinstall⟩ := forkSpace_built hspace
  obtain ⟨hnone, -⟩ | ⟨c', stack', heap', hslot', hheap', ⟨hzero, -⟩ | ⟨-, hcreate⟩⟩ :=
    processCreate_cases k
  · cases hslot.symm.trans hnone
  · obtain ⟨rfl, -⟩ := Prod.mk.inj (hheap.symm.trans hheap')
    exact absurd hzero hstack
  · obtain rfl := Option.some.inj (hslot.symm.trans hslot')
    obtain ⟨rfl, rfl⟩ := Prod.mk.inj (hheap.symm.trans hheap')
    have hmachine : (k.withFresh c stack heap).machine = k.machine := rfl
    have hentry : (k.withFresh c stack heap).procTable c = k.freshEntry stack := by
      simp [withFresh]
    norm_num at hstore
    simp only [processFork, hcreate, forkInto, modifyProc_machine, hmachine, hnew,
      Option.bind_eq_bind, Option.bind_some, if_neg hdir, withMachine_machine, hcopy, hout,
      Bool.false_eq_true, if_false, hinstall, shareFd_foldl _ _ hne]
    simp [modifyProc_modifyProc, hentry, freshEntry, hstore, taskAdd]

/-- With a free entry, a page of the heap, and a frame for each page, each table, the
directory and its scratch slots, `process_fork` returns the next pid. -/
theorem processFork_roomy (h : k.machine.Ledger B L K) (hk : k.machine.Forkable K)
    (hheap : k.heap.Ready) (hmapped : ∀ t < 256, k.machine.leaf k.machine.dir 768 t ≠ none)
    (hslot : k.freeSlot ≠ none) (hstack : (k.heap.kmallocAligned KSTACK_SIZE).1 ≠ 0)
    (hpages : (k.machine.copiedPages k.machine.dir).length ≤ MAX_COPY_PAGES)
    (hroom : 2 + (k.machine.copiedPages k.machine.dir).length +
      ((k.machine.copiedPages k.machine.dir).map Prod.fst).toFinset.card ≤ k.machine.free.card)
    (hcalls : Call.alloc 0 ∉ k.machine.calls) (regs : Registers) :
    ∃ k', k.processFork regs = some (k.nextPid, k') ∧ Call.alloc 0 ∉ k'.machine.calls := by
  obtain ⟨c, hslot⟩ := Option.ne_none_iff_exists'.mp hslot
  rcases halloc : k.heap.kmallocAligned KSTACK_SIZE with ⟨stack, heap⟩
  rw [halloc] at hstack
  obtain ⟨dir, m, hspace, hcalls'⟩ := forkSpace_exists h hk.zero hk.dir hk.low hk.user hpages hroom
    hcalls
  obtain ⟨a, ha, S, rfl, h', hf⟩ := forkSpace_copies h hk.zero hk.dir hk.low hk.user hspace hcalls'
  obtain ⟨t, ht, haddr⟩ := stackFrame_page hheap halloc hstack
  obtain ⟨F, hF⟩ := Option.ne_none_iff_exists'.mp (hmapped t ht)
  have hF' : m.frameAt 768 t = some F := by
    rw [frameAt, show m.dir = k.machine.dir by rw [Machine.dir, hf.cr3, Machine.dir],
      hf.parentLeaf h h' ha le_rfl]
    exact hF
  obtain ⟨-, hFdir, hFheap, -⟩ := stackFrame_kernel h hk h' hf ha (by omega) hF'
  obtain ⟨p, hp, -⟩ := storeWords_words (i := 1008) { regs with eax := 0 }.words
    (by norm_num) (by omega) hF' hFdir hFheap (by simp [Registers.words])
  rw [← haddr] at hp
  obtain ⟨k', hrun, hmachine⟩ := processFork_built regs hslot halloc hstack hspace hp
  exact ⟨k', hrun, by rwa [hmachine]⟩

/-- `process_fork` with room for the child makes two memories of one. -/
theorem process_fork_copies (h : k.machine.Ledger B L K) (hk : k.machine.Forkable K)
    (hheap : k.heap.Ready) (hmapped : ∀ t < 256, k.machine.leaf k.machine.dir 768 t ≠ none)
    (hslot : k.freeSlot ≠ none) (hstack : (k.heap.kmallocAligned KSTACK_SIZE).1 ≠ 0)
    (hpages : (k.machine.copiedPages k.machine.dir).length ≤ MAX_COPY_PAGES)
    (hroom : 2 + (k.machine.copiedPages k.machine.dir).length +
      ((k.machine.copiedPages k.machine.dir).map Prod.fst).toFinset.card ≤ k.machine.free.card)
    (hcalls : Call.alloc 0 ∉ k.machine.calls) (hpid : 0 < k.nextPid) (regs : Registers) :
    ∃ k' c a S, k.processFork regs = some (k.nextPid, k') ∧ k.freeSlot = some c ∧
      (k'.procTable c).pid = k.nextPid ∧ Call.alloc 0 ∉ k'.machine.calls ∧
      k'.machine.Ledger B (insert a L) (insert S K) ∧ ForkedFrom k k' regs c a := by
  obtain ⟨k', hrun, hcalls'⟩ := processFork_roomy h hk hheap hmapped hslot hstack hpages hroom hcalls
    regs
  obtain ⟨c, a, S, hslot', hchild, hled, hfrom⟩ := processFork_forkedFrom h hk hheap hrun hpid
    hcalls'
  exact ⟨k', c, a, S, hrun, hslot', hchild.symm, hcalls', hled, hfrom⟩

end Kernel

namespace Sample

open Kernel Machine

variable {free : Fin 4096} {d t : ℕ}

theorem machine_copied (hd : d < 768) (ht : t < 1024) :
    (machine free).copied 1 d t = true ↔ d = 1 ∧ t = 0 := by
  rw [copied_iff]
  constructor
  · rintro ⟨hp, hq, huser⟩
    have h0 : d ≠ 0 := by
      rintro rfl
      rw [low_pte ht, and_user_mod, show (t * 4096 + 3) % 4096 = 3 by omega] at huser
      exact huser rfl
    obtain rfl : d = 1 := by
      by_contra hd1
      rw [user_pde (by omega) hd, if_neg hd1] at hp
      exact absurd hp (by norm_num)
    refine ⟨rfl, ?_⟩
    by_contra ht0
    rw [user_pte, if_neg ht0] at hq
    exact absurd hq (by norm_num)
  · rintro ⟨rfl, rfl⟩
    exact ⟨user_mapped.1, user_mapped.2.2⟩

theorem machine_pages : (machine free).copiedPages 1 = [(1, 0)] := by
  have hmem : ∀ p, p ∈ (machine free).copiedPages 1 ↔ p ∈ [(1, 0)] := by
    rintro ⟨d, t⟩
    rw [mem_copiedPages, List.mem_singleton, Prod.mk.injEq]
    constructor
    · rintro ⟨hd, ht, hcopied⟩
      exact (machine_copied hd ht).mp hcopied
    · rintro ⟨rfl, rfl⟩
      exact ⟨by norm_num, by norm_num, (machine_copied (by norm_num) (by norm_num)).mpr ⟨rfl, rfl⟩⟩
  exact List.perm_singleton.mp
    ((List.perm_ext_iff_of_nodup (nodup_copiedPages _ _) (List.nodup_singleton _)).mpr hmem)

theorem machine_heapLeaf :
    (machine free).leaf 1 768 t = if t < 256 then some (16 + t) else none := by
  have hpde : (machine free).pde 1 768 % 2 = 1 := by
    rw [sample_pde]
    rfl
  rw [Machine.leaf, heap_pte, heapTable, entry, PAGE_SIZE]
  split_ifs <;> first | omega | rfl | (congr 1; omega)

theorem machine_forkable : (machine free).Forkable kernelFrames where
  zero := frameTest_machine free (by norm_num)
  dir := by
    rw [sample_dir]
    norm_num
  low t ht := by
    rw [← Bool.not_eq_true, sample_dir, machine_copied (by norm_num) ht]
    omega
  user d t _ hd ht hc := by
    rw [sample_dir, machine_copied hd ht] at hc
    obtain ⟨rfl, rfl⟩ := hc
    rw [sample_dir]
    exact user_mapped.2.1
  tables d h₁ hd hp := by
    rw [sample_dir, user_pde h₁ hd] at hp ⊢
    split_ifs at hp ⊢
    rfl
  heap t F _ hF := by
    rw [sample_dir, machine_heapLeaf] at hF
    split_ifs at hF with h256
    obtain rfl := Option.some.inj hF
    refine ⟨⟨frameTest_machine 0 (by omega), by omega, by omega, by omega, by omega⟩,
      fun i hi ↦ ?_⟩
    rw [sample_dir, sample_pde]
    obtain rfl | rfl := hi
    · rw [show directory 0 / 4096 = 2 from rfl]
      omega
    · rw [show directory 768 / 4096 = 4 from rfl]
      omega

/-- Process 0 with its page and 64 free frames. -/
theorem boot_machine : (boot 64).kernel.machine = machine 64 := rfl

theorem boot_ready : (boot 64).kernel.heap.Ready := ⟨by decide, by decide, by decide⟩

theorem boot_mapped (t : ℕ) (ht : t < 256) :
    (boot 64).kernel.machine.leaf (boot 64).kernel.machine.dir 768 t ≠ none := by
  rw [boot_machine, sample_dir, machine_heapLeaf, if_pos ht]
  exact Option.some_ne_none _

theorem boot_pages : (boot 64).kernel.machine.copiedPages (boot 64).kernel.machine.dir = [(1, 0)] := by
  rw [boot_machine, sample_dir, machine_pages]

theorem boot_room : 2 + ((boot 64).kernel.machine.copiedPages (boot 64).kernel.machine.dir).length +
    (((boot 64).kernel.machine.copiedPages (boot 64).kernel.machine.dir).map Prod.fst).toFinset.card ≤
      (boot 64).kernel.machine.free.card := by
  have hfree : (machine 64).free.card = 64 := by
    rw [← pmmFreeFrameCount_eq]
    decide +kernel
  rw [boot_pages, boot_machine, hfree]
  decide

theorem boot_few : ((boot 64).kernel.machine.copiedPages (boot 64).kernel.machine.dir).length ≤
    MAX_COPY_PAGES := by
  rw [boot_pages]
  decide

/-- Process 0 forks, and the child has a page of its own. -/
theorem boot_copies : ∃ k' c a S,
    (boot 64).kernel.processFork registers = some ((boot 64).kernel.nextPid, k') ∧
      (boot 64).kernel.freeSlot = some c ∧ (k'.procTable c).pid = (boot 64).kernel.nextPid ∧
      Call.alloc 0 ∉ k'.machine.calls ∧ k'.machine.Ledger 1 (insert a {1}) (insert S kernelFrames) ∧
      ForkedFrom (boot 64).kernel k' registers c a :=
  process_fork_copies (k := (boot 64).kernel) (machine_ledger 64) machine_forkable boot_ready
    boot_mapped (by decide) (by decide +kernel) boot_few boot_room (by decide) (by decide) registers

end Sample

end EclipseOS
