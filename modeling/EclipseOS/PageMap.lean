import EclipseOS.Space
import EclipseOS.Sample

/-!
# Page tables as a map

From outside, a directory and its tables are a map from page numbers to frames,
which `paging_map` and `paging_unmap` update at one page.
-/

namespace EclipseOS

open LittleEndian

/-- Frames of the directory and its tables. -/
def Machine.InUse (m : Machine) (F : ℕ) : Prop :=
  ∃ d < 1024, m.pde m.dir d % 2 = 1 ∧ m.pde m.dir d / 4096 = F

/-- Page numbers to frames, with the right of user code to the page. -/
abbrev PageMap := ℕ → Option (ℕ × Bool)

inductive PageOp
  | map (virt phys flags : ℕ)
  | unmap (virt : ℕ)

namespace PageOp

def virt : PageOp → ℕ
  | map virt _ _ => virt
  | unmap virt => virt

def page (op : PageOp) : ℕ := op.virt / PAGE_SIZE

/-- What the operation puts at its page. -/
def entry : PageOp → Option (ℕ × Bool)
  | map _ phys flags => some (phys / PAGE_SIZE, flags &&& PAGE_USER != 0)
  | unmap _ => none

def run (m : Machine) : PageOp → Option Machine
  | map virt phys flags => m.pagingMap virt phys flags
  | unmap virt => m.pagingUnmap virt

/-- A call outside the recursive entry, with flags the callers know.  If it
needs a table there is a frame for it, which is neither the directory nor a
table. -/
def Allowed (m : Machine) : PageOp → Prop
  | map virt phys flags => virt < 2 ^ 32 ∧ virt >>> 22 ≠ 1023 ∧ phys < 2 ^ 32 ∧
      flags &&& (PAGE_WRITE ||| PAGE_USER) = flags ∧ (m.pde m.dir (virt >>> 22) % 2 = 0 →
        m.pmmAllocFrame.1 ≠ 0 ∧ m.pmmAllocFrame.1 < 2 ^ 32 ∧
          ¬ m.InUse (m.pmmAllocFrame.1 / PAGE_SIZE))
  | unmap virt => virt < 2 ^ 32 ∧ virt >>> 22 ≠ 1023

end PageOp

namespace PageMap

/-- The map after operations, the newest of them first. -/
def after (μ : PageMap) : List PageOp → PageMap
  | [] => μ
  | op :: ops => Function.update (μ.after ops) op.page op.entry

/-- The last operation on a page decides. -/
theorem after_apply (μ : PageMap) (ops : List PageOp) (n : ℕ) :
    μ.after ops n = (ops.find? fun op ↦ op.page == n).elim (μ n) PageOp.entry := by
  induction ops with
  | nil => rfl
  | cons op ops ih =>
      by_cases hn : op.page = n
      · subst hn
        simp [after]
      · rw [after, Function.update_of_ne (Ne.symm hn), ih, List.find?_cons_of_neg (by simpa using hn)]

end PageMap

namespace Machine

variable {m m' m₀ : Machine} {d d' t t' o a F P phys flags va : ℕ} {ops : List PageOp} {op : PageOp}

/-- Present entries point to different frames, that of the recursive entry among
them, and pages for user code are under entries for user code. -/
structure Paged (m : Machine) : Prop where
  window : m.Recursive
  distinct : ∀ d d', d < 1024 → d' < 1024 → m.pde m.dir d % 2 = 1 → m.pde m.dir d' % 2 = 1 →
    m.pde m.dir d / 4096 = m.pde m.dir d' / 4096 → d = d'
  user : ∀ d t, d < 1023 → t < 1024 → m.copied m.dir d t = true → m.pde m.dir d &&& PAGE_USER ≠ 0

/-- Page `(d, t)` of the loaded directory. -/
def pageEntry (m : Machine) (d t : ℕ) : Option (ℕ × Bool) :=
  (m.frameAt d t).map fun F ↦ (F, m.copied m.dir d t)

def pageMap (m : Machine) : PageMap := fun n ↦ m.pageEntry (n / 1024) (n % 1024)

namespace Paged

theorem table_ne_dir (h : m.Paged) (hd : d < 1023) (hp : m.pde m.dir d % 2 = 1) :
    m.pde m.dir d / 4096 ≠ m.dir := by
  intro heq
  have := h.distinct d 1023 (by omega) (by norm_num) hp h.window.present (heq.trans h.window.self.symm)
  omega

theorem inUse_dir (h : m.Paged) : m.InUse m.dir := ⟨1023, by norm_num, h.window.present, h.window.self⟩

theorem log (h : m.Paged) (c : Call) : (m.log c).Paged := ⟨h.window.log c, h.distinct, h.user⟩

theorem alloc (h : m.Paged) : m.pmmAllocFrame.2.Paged ∧
    ∀ d t, m.pmmAllocFrame.2.pageEntry d t = m.pageEntry d t := by
  have hpde : ∀ d, m.pmmAllocFrame.2.pde m.dir d = m.pde m.dir d := fun d ↦ by
    rw [pde, pmmAllocFrame_mem, pde]
  have hpte : ∀ d t, m.pmmAllocFrame.2.pte m.dir d t = m.pte m.dir d t := fun d t ↦ by
    rw [pte, hpde, pmmAllocFrame_mem, pte]
  refine ⟨⟨h.window.congr (by simp) (by simp), ?_, ?_⟩, fun d t ↦ ?_⟩
  · simp only [pmmAllocFrame_dir, hpde]
    exact h.distinct
  · simp only [copied, pmmAllocFrame_dir, hpde, hpte]
    exact h.user
  · simp only [pageEntry, frameAt, leaf, copied, pmmAllocFrame_dir, hpde, hpte]

/-- What the functions of `paging.c` answer is the entry of the page. -/
theorem virtToPhys (h : m.Paged) (ha : a < 2 ^ 32) :
    m.pagingVirtToPhys a =
      some ((m.pageMap (a / 4096)).elim NOT_MAPPED fun e ↦ e.1 * 4096 + a % 4096) := by
  obtain ⟨d, t, o, hd, ht, ho, rfl⟩ := exists_pageAddr ha
  have hpage : (pageAddr d t + o) / 4096 / 1024 = d ∧ (pageAddr d t + o) / 4096 % 1024 = t ∧
      (pageAddr d t + o) % 4096 = o := by
    rw [pageAddr]
    omega
  rw [pagingVirtToPhys_addr h.window hd ht ho, pageMap, hpage.1, hpage.2.1, hpage.2.2, pageEntry]
  cases m.frameAt d t <;> rfl

theorem isUser (h : m.Paged) (ha : a < 2 ^ 32) (hout : a >>> 22 ≠ 1023) :
    m.pagingIsUser a = some ((m.pageMap (a / 4096)).elim false Prod.snd) := by
  obtain ⟨d, t, o, hd, ht, ho, rfl⟩ := exists_pageAddr ha
  have hpage : (pageAddr d t + o) / 4096 / 1024 = d ∧ (pageAddr d t + o) / 4096 % 1024 = t := by
    rw [pageAddr]
    omega
  rw [(pageAddr_split hd ht ho).1] at hout
  rw [pagingIsUser_addr h.window hd ht ho, pageMap, hpage.1, hpage.2, pageEntry]
  apply congrArg some
  by_cases hc : m.copied m.dir d t = true
  · have huser := h.user d t (by omega) ht hc
    rw [copied_iff] at hc
    have hframe : m.frameAt d t = some (m.pte m.dir d t / 4096) :=
      frameAt_eq_some.mpr ⟨hc.1, hc.2.1, rfl⟩
    rw [hframe, Option.map_some, Option.elim_some, copied_iff.mpr hc]
    exact decide_eq_true ⟨hc.1, huser, hc.2⟩
  · rw [decide_eq_false fun hmap ↦ hc (copied_iff.mpr ⟨hmap.1, hmap.2.2⟩)]
    rw [Bool.not_eq_true] at hc
    cases m.frameAt d t with
    | none => rfl
    | some F => exact hc.symm

end Paged

/-! ## One operation -/

/-- What an entry of a table says. -/
def wordEntry (w : ℕ) : Option (ℕ × Bool) :=
  if w % 2 = 0 then none else some (w / 4096, w &&& PAGE_USER != 0)

theorem pageEntry_eq (m : Machine) (d t : ℕ) : m.pageEntry d t =
    if m.pde m.dir d % 2 = 0 then none else wordEntry (m.pte m.dir d t) := by
  rw [pageEntry, frameAt, leaf, wordEntry]
  split
  · rfl
  · next hp =>
    split
    · rfl
    · next hq =>
      have h₁ : m.pde m.dir d % 2 = 1 := by omega
      have h₂ : m.pte m.dir d t % 2 = 1 := by omega
      simp [copied, h₁, h₂]

/-- The walk takes the frame of the table and the entry from memory. -/
theorem pageEntry_congr (hcr3 : m'.cr3 = m.cr3) (hodd : m'.pde m.dir d % 2 = m.pde m.dir d % 2)
    (hdiv : m'.pde m.dir d / 4096 = m.pde m.dir d / 4096)
    (hpte : m.pde m.dir d % 2 = 1 → word (m'.mem (m.pde m.dir d / 4096)) t =
      word (m.mem (m.pde m.dir d / 4096)) t) : m'.pageEntry d t = m.pageEntry d t := by
  have hdir : m'.dir = m.dir := by rw [dir, hcr3, dir]
  rw [pageEntry_eq, pageEntry_eq, hdir, hodd]
  by_cases hp : m.pde m.dir d % 2 = 0
  · rw [if_pos hp, if_pos hp]
  · rw [if_neg hp, if_neg hp, pte, hdiv, hpte (by omega), pte]

theorem copied_iff_entry : m.copied m.dir d t = true ↔ ∃ F, m.pageEntry d t = some (F, true) := by
  rw [copied_iff, pageEntry_eq, wordEntry]
  constructor
  · rintro ⟨hp, hq, hu⟩
    refine ⟨m.pte m.dir d t / 4096, ?_⟩
    rw [if_neg (by omega), if_neg (by omega), bne_iff_ne.mpr hu]
  · rintro ⟨F, hF⟩
    split at hF
    · exact nomatch hF
    · split at hF
      · exact nomatch hF
      · obtain ⟨-, hu⟩ := Prod.mk.inj (Option.some.inj hF)
        exact ⟨by omega, by omega, bne_iff_ne.mp hu⟩

/-- The user bit of the directory entry, ahead of the entry of the page. -/
def withUser (m : Machine) (d flags : ℕ) : Machine :=
  m.setWord m.dir d (m.pde m.dir d ||| (flags &&& PAGE_USER))

theorem withUser_pde (m : Machine) (d flags d' : ℕ) : (m.withUser d flags).pde m.dir d' =
    if d' = d then m.pde m.dir d ||| (flags &&& PAGE_USER) else m.pde m.dir d' := by
  have hlt : m.pde m.dir d ||| (flags &&& PAGE_USER) < 2 ^ 32 := by
    apply Nat.or_lt_two_pow (m.pde_lt m.dir d)
    rcases and_user_cases flags with h | h <;> rw [h] <;> norm_num
  rw [pde, withUser, word_setWord, Nat.mod_eq_of_lt hlt]
  simp [pde]

theorem or_user (w flags : ℕ) : (w ||| (flags &&& PAGE_USER)) % 2 = w % 2 ∧
    (w ||| (flags &&& PAGE_USER)) / 4096 = w / 4096 ∧
    (w &&& PAGE_USER ≠ 0 ∨ flags &&& PAGE_USER ≠ 0 → (w ||| (flags &&& PAGE_USER)) &&& PAGE_USER ≠ 0) := by
  rcases and_user_cases flags with h | h <;> rw [h]
  · exact ⟨by rw [Nat.or_zero], by rw [Nat.or_zero], fun hu ↦ by simpa using hu⟩
  · refine ⟨or_even_mod (by norm_num), or_low_div (by norm_num), fun _ ↦ ?_⟩
    rw [Nat.and_or_distrib_right]
    rcases and_user_cases w with h' | h' <;> rw [h'] <;> decide

theorem Paged.withUser (h : m.Paged) (flags : ℕ) (hd : d < 1023) : (m.withUser d flags).Paged ∧
    (∀ d' t', d' < 1023 → (m.withUser d flags).pageEntry d' t' = m.pageEntry d' t') ∧
    (flags &&& PAGE_USER ≠ 0 → (m.withUser d flags).pde m.dir d &&& PAGE_USER ≠ 0) := by
  have hparity : ∀ d', (m.withUser d flags).pde m.dir d' % 2 = m.pde m.dir d' % 2 ∧
      (m.withUser d flags).pde m.dir d' / 4096 = m.pde m.dir d' / 4096 := by
    intro d'
    rw [withUser_pde]
    split
    · next heq =>
      subst heq
      exact ⟨(or_user _ flags).1, (or_user _ flags).2.1⟩
    · exact ⟨rfl, rfl⟩
  have hentry : ∀ d' t', d' < 1023 → (m.withUser d flags).pageEntry d' t' = m.pageEntry d' t' := by
    intro d' t' hd'
    refine pageEntry_congr rfl (hparity d').1 (hparity d').2 fun hp ↦ ?_
    rw [Machine.withUser, setWord_mem_of_ne _ _ (h.table_ne_dir hd' hp)]
  refine ⟨⟨?_, ?_, ?_⟩, hentry, ?_⟩
  · exact h.window.setWord (Or.inr (by omega)) _
  · intro d₁ d₂ h₁ h₂ hp₁ hp₂ heq
    have hdir : (m.withUser d flags).dir = m.dir := rfl
    rw [hdir] at hp₁ hp₂ heq
    rw [(hparity d₁).1] at hp₁
    rw [(hparity d₂).1] at hp₂
    rw [(hparity d₁).2, (hparity d₂).2] at heq
    exact h.distinct d₁ d₂ h₁ h₂ hp₁ hp₂ heq
  · intro d' t' hd' ht' hc
    rw [copied_iff_entry, hentry d' t' hd', ← copied_iff_entry] at hc
    have huser := h.user d' t' hd' ht' hc
    rw [show (m.withUser d flags).dir = m.dir from rfl, withUser_pde]
    split
    · next heq =>
      subst heq
      exact (or_user _ flags).2.2 (Or.inl huser)
    · exact huser
  · intro hu
    rw [withUser_pde, if_pos rfl]
    exact (or_user _ flags).2.2 (Or.inr hu)

/-- A word written into a table. -/
theorem Paged.setEntry (h : m.Paged) (hd : d < 1023) (ht : t < 1024) (hp : m.pde m.dir d % 2 = 1)
    {w : ℕ} (hw : w < 2 ^ 32)
    (hu : w &&& PAGE_USER ≠ 0 → m.pde m.dir d &&& PAGE_USER ≠ 0) :
    (m.setWord (m.pde m.dir d / 4096) t w).Paged ∧
      ∀ d' t', d' < 1023 → (m.setWord (m.pde m.dir d / 4096) t w).pageEntry d' t' =
        if d' = d ∧ t' = t then wordEntry w else m.pageEntry d' t' := by
  set m₁ := m.setWord (m.pde m.dir d / 4096) t w with hm₁
  have hne := h.table_ne_dir hd hp
  have hpde : ∀ d', m₁.pde m.dir d' = m.pde m.dir d' := fun d' ↦ by
    rw [pde, hm₁, setWord_mem_of_ne _ _ hne.symm, pde]
  have hentry : ∀ d' t', d' < 1023 → m₁.pageEntry d' t' =
      if d' = d ∧ t' = t then wordEntry w else m.pageEntry d' t' := by
    intro d' t' hd'
    split
    · next heq =>
      obtain ⟨rfl, rfl⟩ := heq
      rw [pageEntry_eq, show m₁.dir = m.dir from rfl, hpde, if_neg (by omega), pte, hpde, hm₁,
        word_setWord, if_pos ⟨rfl, rfl⟩, Nat.mod_eq_of_lt hw]
    · next hother =>
      refine pageEntry_congr rfl (by rw [hpde]) (by rw [hpde]) fun hp' ↦ ?_
      rw [hm₁, word_setWord, if_neg]
      rintro ⟨hframe, ht'⟩
      exact hother ⟨h.distinct d' d (by omega) (by omega) hp' hp hframe, ht'⟩
  refine ⟨⟨h.window.setWord (Or.inl hne) _, ?_, ?_⟩, hentry⟩
  · intro d₁ d₂ h₁ h₂
    rw [show m₁.dir = m.dir from rfl, hpde, hpde]
    exact h.distinct d₁ d₂ h₁ h₂
  · intro d' t' hd' ht' hc
    rw [copied_iff_entry, hentry d' t' hd'] at hc
    rw [show m₁.dir = m.dir from rfl, hpde]
    split at hc
    · next heq =>
      obtain ⟨F, hF⟩ := hc
      rw [wordEntry] at hF
      split at hF
      · cases hF
      · obtain ⟨-, huser⟩ := Prod.mk.inj (Option.some.inj hF)
        rw [heq.1]
        exact hu (bne_iff_ne.mp huser)
    · exact h.user d' t' hd' ht' (copied_iff_entry.mpr hc)

/-- A new table, in a frame with anything in it. -/
theorem Paged.withTable (h : m.Paged) (hd : d < 1023) (hp : m.pde m.dir d % 2 = 0)
    (hF : ¬ m.InUse F) (hlt : F < 2 ^ 20) : (m.withTable d F).Paged ∧
      (m.withTable d F).pde m.dir d % 2 = 1 ∧
      ∀ d' t', d' < 1023 → t' < 1024 → (m.withTable d F).pageEntry d' t' = m.pageEntry d' t' := by
  set m₁ := m.withTable d F with hm₁
  have hdirF : F ≠ m.dir := fun heq ↦ hF (heq ▸ h.inUse_dir)
  have hmem : m₁.mem m.dir = (m.setWord m.dir d (F * 4096 + 3)).mem m.dir := by
    rw [hm₁, Machine.withTable, setFrame_mem_of_ne _ hdirF.symm]
  have hpde : ∀ d', m₁.pde m.dir d' = if d' = d then F * 4096 + 3 else m.pde m.dir d' := by
    intro d'
    rw [pde, hmem, word_setWord, Nat.mod_eq_of_lt (by omega)]
    simp [pde]
  have hentry : ∀ d' t', d' < 1023 → t' < 1024 → m₁.pageEntry d' t' = m.pageEntry d' t' := by
    intro d' t' hd' ht'
    by_cases heq : d' = d
    · subst heq
      have hcleared : word (m₁.mem F) t' = 0 := by
        rw [hm₁, Machine.withTable, setFrame_mem_self, word_splice_page _ _ ht', word_zero]
      rw [pageEntry_eq, pageEntry_eq, if_pos hp, show m₁.dir = m.dir from rfl, pte, hpde, if_pos rfl,
        if_neg (by omega), show (F * 4096 + 3) / 4096 = F by omega, hcleared]
      rfl
    · have hsame : m₁.pde m.dir d' = m.pde m.dir d' := by rw [hpde, if_neg heq]
      refine pageEntry_congr rfl (by rw [hsame]) (by rw [hsame]) fun hp' ↦ ?_
      have hframe : m.pde m.dir d' / 4096 ≠ F := fun hFd ↦ hF ⟨d', by omega, hp', hFd⟩
      rw [hm₁, Machine.withTable, setFrame_mem_of_ne _ hframe,
        setWord_mem_of_ne _ _ (h.table_ne_dir hd' hp')]
  have hodd : m₁.pde m.dir d % 2 = 1 := by
    rw [hpde, if_pos rfl]
    omega
  refine ⟨⟨h.window.withTable hd hdirF, ?_, ?_⟩, hodd, hentry⟩
  · intro d₁ d₂ h₁ h₂
    rw [show m₁.dir = m.dir from rfl, hpde, hpde]
    split <;> split
    · intros
      omega
    · intro _ hp₂ heq
      exact absurd ⟨d₂, h₂, hp₂, by omega⟩ hF
    · intro hp₁ _ heq
      exact absurd ⟨d₁, h₁, hp₁, by omega⟩ hF
    · exact h.distinct d₁ d₂ h₁ h₂
  · intro d' t' hd' ht' hc
    rw [copied_iff_entry, hentry d' t' hd' ht', ← copied_iff_entry] at hc
    have huser := h.user d' t' hd' ht' hc
    rw [show m₁.dir = m.dir from rfl, hpde, if_neg]
    · exact huser
    · rintro rfl
      have hp' := (copied_iff.mp hc).1
      omega

theorem and_user_mod (w : ℕ) : w &&& PAGE_USER = w % 4096 &&& PAGE_USER := by
  rw [← and_offset_mask, Nat.and_assoc]
  rfl

/-- The entry that `paging_map` writes. -/
theorem wordEntry_page (P : ℕ) (hfl : flags &&& (PAGE_WRITE ||| PAGE_USER) = flags) :
    wordEntry (P * 4096 + (flags ||| 1)) = some (P, flags &&& PAGE_USER != 0) ∧
      (P * 4096 + (flags ||| 1)) &&& PAGE_USER = flags &&& PAGE_USER ∧ flags ||| 1 < 4096 := by
  have hcases : (flags ||| 1) % 2 = 1 ∧ flags ||| 1 < 4096 ∧
      (flags ||| 1) &&& PAGE_USER = flags &&& PAGE_USER := by
    have hle : flags ≤ 6 := hfl ▸ Nat.and_le_right
    interval_cases flags <;> decide
  obtain ⟨hodd, hlt, huser⟩ := hcases
  have hword : (P * 4096 + (flags ||| 1)) &&& PAGE_USER = flags &&& PAGE_USER := by
    rw [and_user_mod, Nat.mul_add_mod_of_lt hlt, huser]
  refine ⟨?_, hword, hlt⟩
  rw [wordEntry, if_neg (by omega), hword, show (P * 4096 + (flags ||| 1)) / 4096 = P by omega]

theorem Paged.withPage (h : m.Paged) (hd : d < 1023) (ht : t < 1024) (hp : m.pde m.dir d % 2 = 1)
    (hP : P < 2 ^ 20) (hfl : flags &&& (PAGE_WRITE ||| PAGE_USER) = flags) :
    (m.withPage d t P flags).Paged ∧
      ∀ d' t', d' < 1023 → (m.withPage d t P flags).pageEntry d' t' =
        if d' = d ∧ t' = t then some (P, flags &&& PAGE_USER != 0) else m.pageEntry d' t' := by
  obtain ⟨hword, huser, hlt⟩ := wordEntry_page P hfl
  obtain ⟨hpaged, hentry, hbit⟩ := h.withUser flags hd
  have hpde : (m.withUser d flags).pde m.dir d % 2 = 1 ∧
      (m.withUser d flags).pde m.dir d / 4096 = m.pde m.dir d / 4096 := by
    rw [withUser_pde, if_pos rfl, (or_user _ flags).1, (or_user _ flags).2.1]
    exact ⟨hp, rfl⟩
  obtain ⟨hpaged', hentry'⟩ := hpaged.setEntry hd ht hpde.1 (w := P * 4096 + (flags ||| 1))
    (by omega) (by rw [huser]; exact hbit)
  rw [show (m.withUser d flags).dir = m.dir from rfl, hpde.2] at hpaged' hentry'
  refine ⟨hpaged', fun d' t' hd' ↦ (hentry' d' t' hd').trans ?_⟩
  rw [hword, hentry d' t' hd']

theorem log_pmmAllocFrame (m : Machine) (c : Call) :
    (m.log c).pmmAllocFrame.1 = m.pmmAllocFrame.1 ∧ ∃ F, m.pmmAllocFrame.1 = F * PAGE_SIZE := by
  have hfirst : ∀ lo hi, (m.log c).firstFree lo hi = m.firstFree lo hi := fun _ _ ↦ rfl
  simp only [pmmAllocFrame, hfirst]
  rw [show (m.log c).lastAlloc = m.lastAlloc from rfl,
    show (m.log c).totalFrames = m.totalFrames from rfl]
  cases (m.firstFree m.lastAlloc m.totalFrames).or (m.firstFree 0 m.lastAlloc) with
  | none => exact ⟨rfl, 0, rfl⟩
  | some i => exact ⟨rfl, i, rfl⟩

/-- Page number of an address and its indices. -/
theorem page_index {va : ℕ} (hva : va < 2 ^ 32) : va >>> 22 = va / PAGE_SIZE / 1024 ∧
    (va >>> 12) &&& 0x3FF = va / PAGE_SIZE % 1024 ∧ va >>> 22 < 1024 := by
  rw [and_index_mask, Nat.shiftRight_eq_div_pow, Nat.shiftRight_eq_div_pow, PAGE_SIZE]
  omega

/-- An operation changes the map at its page. -/
theorem Paged.step (h : m.Paged) (hop : op.Allowed m) : ∃ m', op.run m = some m' ∧ m'.Paged ∧
    ∀ n < 2 ^ 20, n / 1024 ≠ 1023 → m'.pageMap n = Function.update m.pageMap op.page op.entry n := by
  have hupdate : ∀ {m' : Machine} {e : Option (ℕ × Bool)} {va : ℕ}, va < 2 ^ 32 →
      (∀ d' t', d' < 1023 → t' < 1024 → m'.pageEntry d' t' =
        if d' = va >>> 22 ∧ t' = (va >>> 12) &&& 0x3FF then e else m.pageEntry d' t') →
      ∀ n < 2 ^ 20, n / 1024 ≠ 1023 → m'.pageMap n =
        Function.update m.pageMap (va / PAGE_SIZE) e n := by
    intro m' e va hva hentry n hn hout
    obtain ⟨h₁, h₂, h₃⟩ := page_index hva
    rw [pageMap, hentry _ _ (by omega) (by omega), Function.update_apply, h₁, h₂]
    exact if_congr (by omega) rfl rfl
  cases op with
  | map virt phys flags =>
      obtain ⟨hva, hout, hphys, hfl, htable⟩ := hop
      obtain ⟨-, -, hdlt⟩ := page_index hva
      set d := virt >>> 22 with hd
      set t := (virt >>> 12) &&& 0x3FF with ht
      have htlt : t < 1024 := by
        rw [ht, and_index_mask]
        omega
      have hmask : phys &&& PAGE_MASK = phys / PAGE_SIZE * 4096 := and_page_mask hphys
      have hframe : phys / PAGE_SIZE < 2 ^ 20 := by
        rw [PAGE_SIZE]
        omega
      have hflags : flags < 4096 := by
        have hle : flags ≤ 6 := hfl ▸ Nat.and_le_right
        omega
      have hlog := h.log (.map virt phys flags)
      rcases Nat.mod_two_eq_zero_or_one (m.pde m.dir d) with hp | hp
      · obtain ⟨-, hword, hfresh⟩ := htable hp
        obtain ⟨hsame, F, hF⟩ := log_pmmAllocFrame m (.map virt phys flags)
        rw [hF, PAGE_SIZE] at hword
        rw [hF, Nat.mul_div_cancel F (by norm_num [PAGE_SIZE])] at hfresh
        set m₁ := (m.log (.map virt phys flags)).pmmAllocFrame.2 with hm₁
        have halloc : (m.log (.map virt phys flags)).pmmAllocFrame = (F * PAGE_SIZE, m₁) := by
          rw [← hF, ← hsame]
        have hdir₁ : m₁.dir = m.dir := pmmAllocFrame_dir _
        have hpde₁ : ∀ d', m₁.pde m.dir d' = m.pde m.dir d' := fun d' ↦ by
          rw [pde, hm₁, pmmAllocFrame_mem, pde]
          rfl
        obtain ⟨hpaged₁, hentry₁⟩ := hlog.alloc
        have hfresh₁ : ¬ m₁.InUse F := by
          rintro ⟨d', hd', hp', heq⟩
          rw [hdir₁, hpde₁] at hp' heq
          exact hfresh ⟨d', hd', hp', heq⟩
        have hrun := pagingMap_of_absent h.window (by omega) htlt ⟨hd.symm, ht.symm⟩ hp halloc (by omega)
          (fun heq ↦ hfresh (heq ▸ h.inUse_dir)) hmask hflags
        obtain ⟨hpaged₂, hodd, hentry₂⟩ := hpaged₁.withTable (d := d) (F := F) (by omega)
          (by rw [hdir₁, hpde₁, hp]) hfresh₁ (by omega)
        obtain ⟨hpaged, hentry⟩ := hpaged₂.withPage (P := phys / PAGE_SIZE) (by omega) htlt hodd hframe hfl
        refine ⟨_, hrun, hpaged, hupdate hva fun d' t' hd' ht' ↦ ?_⟩
        rw [hentry d' t' hd', hentry₂ d' t' hd' ht', hentry₁]
        rfl
      · have hrun := pagingMap_of_present h.window (by omega) htlt ⟨hd.symm, ht.symm⟩ hp hmask hflags
        obtain ⟨hpaged, hentry⟩ := hlog.withPage (P := phys / PAGE_SIZE) (by omega) htlt hp hframe hfl
        exact ⟨_, hrun, hpaged, hupdate hva fun d' t' hd' _ ↦ hentry d' t' hd'⟩
  | unmap virt =>
      obtain ⟨hva, hout⟩ := hop
      obtain ⟨-, -, hdlt⟩ := page_index hva
      set d := virt >>> 22 with hd
      set t := (virt >>> 12) &&& 0x3FF with ht
      have htlt : t < 1024 := by
        rw [ht, and_index_mask]
        omega
      have hlog := h.log (.unmap virt)
      rcases Nat.mod_two_eq_zero_or_one (m.pde m.dir d) with hp | hp
      · refine ⟨_, pagingUnmap_absent h.window (by omega) hd.symm hp, hlog,
          hupdate hva fun d' t' _ _ ↦ ?_⟩
        split
        · next heq =>
          obtain ⟨rfl, rfl⟩ := heq
          rw [pageEntry_eq]
          exact if_pos hp
        · rfl
      · obtain ⟨hpaged, hentry⟩ := hlog.setEntry (w := 0) (by omega) htlt hp (by norm_num)
          fun hu ↦ absurd (Nat.zero_and _) hu
        exact ⟨_, pagingUnmap_present h.window (by omega) htlt ⟨hd.symm, ht.symm⟩ hp, hpaged,
          hupdate hva fun d' t' hd' _ ↦ hentry d' t' hd'⟩

/-! ## Histories -/

/-- Calls of `paging_map` and `paging_unmap`, the newest of them first. -/
inductive PageRun (m₀ : Machine) : List PageOp → Machine → Prop
  | start : PageRun m₀ [] m₀
  | step {ops : List PageOp} {m m' : Machine} {op : PageOp} (h : PageRun m₀ ops m)
      (hop : op.Allowed m) (hrun : op.run m = some m') : PageRun m₀ (op :: ops) m'

theorem PageRun.pageMap (h₀ : m₀.Paged) (hrun : PageRun m₀ ops m) : m.Paged ∧
    ∀ n < 2 ^ 20, n / 1024 ≠ 1023 → m.pageMap n = m₀.pageMap.after ops n := by
  induction hrun with
  | start => exact ⟨h₀, fun _ _ _ ↦ rfl⟩
  | step h hop hrun ih =>
      obtain ⟨hpaged, hmap⟩ := ih
      obtain ⟨m', hrun', hpaged', hmap'⟩ := hpaged.step hop
      obtain rfl := Option.some.inj (hrun.symm.trans hrun')
      refine ⟨hpaged', fun n hn hout ↦ ?_⟩
      rw [hmap' n hn hout, PageMap.after, Function.update_apply, Function.update_apply, hmap n hn hout]

def lastOp (ops : List PageOp) (a : ℕ) : Option PageOp :=
  ops.find? fun op ↦ op.page == a / PAGE_SIZE

/-- The translation of `a` that the last operation on its page left. -/
def translationAfter (m₀ : Machine) (ops : List PageOp) (a : ℕ) : Option ℕ :=
  match lastOp ops a with
  | none => m₀.pagingVirtToPhys a
  | some (.map _ phys _) => some ((phys &&& PAGE_MASK) + a % PAGE_SIZE)
  | some (.unmap _) => some NOT_MAPPED

def userAfter (m₀ : Machine) (ops : List PageOp) (a : ℕ) : Option Bool :=
  match lastOp ops a with
  | none => m₀.pagingIsUser a
  | some (.map _ _ flags) => some (flags &&& PAGE_USER != 0)
  | some (.unmap _) => some false

theorem PageRun.phys_lt (hrun : PageRun m₀ ops m) {virt phys flags : ℕ}
    (hmem : .map virt phys flags ∈ ops) : phys < 2 ^ 32 := by
  induction hrun with
  | start => exact nomatch hmem
  | step h hop hrun ih =>
      rcases List.mem_cons.mp hmem with rfl | hmem
      · exact hop.2.2.1
      · exact ih hmem

/-- A history leaves the translations it names last, whatever was in the frames
of the new tables. -/
theorem page_tables_map (h₀ : m₀.Paged) (hrun : PageRun m₀ ops m) :
    (∀ a < 2 ^ 32, a >>> 22 ≠ 1023 → m.pagingVirtToPhys a = translationAfter m₀ ops a ∧
      m.pagingIsUser a = userAfter m₀ ops a) ∧
    ∀ op : PageOp, op.Allowed m → ∃ m', op.run m = some m' ∧
      ∀ a < 2 ^ 32, a >>> 22 ≠ 1023 → a / PAGE_SIZE ≠ op.page →
        m'.pagingVirtToPhys a = m.pagingVirtToPhys a ∧ m'.pagingIsUser a = m.pagingIsUser a := by
  obtain ⟨hpaged, hmap⟩ := hrun.pageMap h₀
  constructor
  · intro a ha hout
    obtain ⟨hindex, -, -⟩ := page_index ha
    have hpage := hmap (a / 4096) (by omega) (by rwa [hindex, PAGE_SIZE] at hout)
    rw [PageMap.after_apply] at hpage
    rw [hpaged.virtToPhys ha, hpaged.isUser ha hout, hpage, translationAfter, userAfter,
      h₀.virtToPhys ha, h₀.isUser ha hout, lastOp, PAGE_SIZE]
    cases hlast : ops.find? fun op ↦ op.page == a / 4096 with
    | none => exact ⟨rfl, rfl⟩
    | some op =>
        cases op with
        | map virt phys flags =>
            have hphys := hrun.phys_lt (List.mem_of_find?_eq_some hlast)
            dsimp only
            rw [PAGE_MASK, and_page_mask hphys]
            exact ⟨rfl, rfl⟩
        | unmap virt => exact ⟨rfl, rfl⟩
  · intro op hop
    obtain ⟨m', hstep, hpaged', hmap'⟩ := hpaged.step hop
    refine ⟨m', hstep, fun a ha hout hother ↦ ?_⟩
    obtain ⟨hindex, -, -⟩ := page_index ha
    have hpage := hmap' (a / 4096) (by omega) (by rwa [hindex, PAGE_SIZE] at hout)
    rw [Function.update_of_ne (show a / 4096 ≠ op.page from hother)] at hpage
    rw [hpaged'.virtToPhys ha, hpaged.virtToPhys ha, hpaged'.isUser ha hout, hpaged.isUser ha hout,
      hpage]
    exact ⟨rfl, rfl⟩

/-! ## A machine -/

theorem sample_dir (free : Fin 4096) : (Sample.machine free).dir = 1 := by
  rw [dir, show (Sample.machine free).cr3 = 4096 from rfl]

theorem sample_pde (free : Fin 4096) (d : ℕ) :
    (Sample.machine free).pde 1 d = Sample.directory d := by
  have hlt : Sample.directory d < 2 ^ 32 := by
    rw [Sample.directory]
    split_ifs <;> decide
  rw [pde, show (Sample.machine free).mem 1 = ofWords Sample.directory from rfl, word_ofWords,
    Nat.mod_eq_of_lt hlt]

theorem paged_sample (free : Fin 4096) : (Sample.machine free).Paged := by
  have hdir := sample_dir free
  have hpde := sample_pde free
  refine ⟨⟨by rw [hdir]; rfl, by rw [hdir, hpde]; rfl, by rw [hdir, hpde]; rfl⟩, ?_, ?_⟩
  · intro d d' _ _ hp hp' heq
    rw [hdir, hpde] at hp heq
    rw [hdir, hpde] at hp'
    rw [hpde] at heq
    simp only [Sample.directory, Sample.entry, PAGE_SIZE] at hp hp' heq
    split_ifs at hp hp' heq <;> omega
  · intro d t hd ht hc
    rw [hdir, copied_iff, pte, hpde] at hc
    obtain ⟨hp, -, hu⟩ := hc
    rw [hdir, hpde]
    have hkernel : ∀ f : ℕ → ℕ, f t < 2 ^ 32 → f t % 4096 < 4 → word (ofWords f) t &&& PAGE_USER = 0 := by
      intro f hlt hflags
      rw [word_ofWords, Nat.mod_eq_of_lt hlt, and_user_mod]
      interval_cases f t % 4096 <;> rfl
    have hframe : Sample.directory d / 4096 =
        if d = 0 then 2 else if d = 1 then 3 else if d = 768 then 4 else if d = 1023 then 1 else 0 := by
      rw [Sample.directory]
      split_ifs <;> decide
    rw [hframe] at hu
    rw [Sample.directory] at hp ⊢
    by_cases h₀ : d = 0
    · rw [if_pos h₀] at hu
      refine absurd (hkernel (fun t ↦ Sample.entry t 3) ?_ ?_) hu <;>
        simp only [Sample.entry, PAGE_SIZE] <;> omega
    · rw [if_neg h₀] at hu hp ⊢
      by_cases h₁ : d = 1
      · rw [if_pos h₁]
        decide
      · rw [if_neg h₁] at hu hp
        by_cases h₂ : d = 768
        · rw [if_pos h₂] at hu
          refine absurd (hkernel Sample.heapTable ?_ ?_) hu <;>
            simp only [Sample.heapTable, Sample.entry, PAGE_SIZE] <;> split <;> omega
        · rw [if_neg h₂, if_neg (by omega)] at hp
          exact absurd hp (by norm_num)

/-- A page of a new table. -/
theorem page_tables_map_sample : ∃ m, PageRun (Sample.machine 4) [.map 0x800000 0x500123 6] m ∧
    m.pagingVirtToPhys 0x800ABC = some 0x500ABC ∧ m.pagingIsUser 0x800ABC = some true := by
  have hallowed : (PageOp.map 0x800000 0x500123 6).Allowed (Sample.machine 4) := by
    have halloc : (Sample.machine 4).pmmAllocFrame.1 = 1024 * PAGE_SIZE := by decide +kernel
    refine ⟨by norm_num, by decide, by norm_num, by decide, fun _ ↦ ?_⟩
    rw [halloc]
    refine ⟨by decide, by decide, ?_⟩
    rintro ⟨d, -, -, heq⟩
    rw [sample_dir, sample_pde, Sample.directory, PAGE_SIZE] at heq
    split_ifs at heq <;> simp [Sample.entry, PAGE_SIZE] at heq
  obtain ⟨m, hrun, -, -⟩ := (paged_sample 4).step hallowed
  have hhistory := PageRun.start.step hallowed hrun
  obtain ⟨hall, -⟩ := page_tables_map (paged_sample 4) hhistory
  obtain ⟨hphys, huser⟩ := hall 0x800ABC (by norm_num) (by decide)
  exact ⟨m, hhistory, hphys, huser⟩

end Machine

end EclipseOS
