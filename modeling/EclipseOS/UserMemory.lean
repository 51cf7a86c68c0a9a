import EclipseOS.Exchange
import EclipseOS.Mirror

/-!
# User memory

The user part of the loaded address space as a partial byte memory.  A store
into it reaches one byte of one page and nothing else, since no frame is
mapped twice.
-/

namespace EclipseOS

open LittleEndian

/-- Addresses of directory entries 1 to 767. -/
def UserAddr (va : ℕ) : Prop := 2 ^ 22 ≤ va ∧ va < 3 * 2 ^ 30

instance (va : ℕ) : Decidable (UserAddr va) := inferInstanceAs (Decidable (_ ∧ _))

theorem UserAddr.exists_pageAddr {va : ℕ} (h : UserAddr va) :
    ∃ d t o, 1 ≤ d ∧ d < 768 ∧ t < 1024 ∧ o < 4096 ∧ va = pageAddr d t + o := by
  obtain ⟨h₁, h₂⟩ := h
  refine ⟨va / 2 ^ 22, va / 2 ^ 12 % 1024, va % 4096, by omega, by omega, by omega, by omega, ?_⟩
  simp only [pageAddr]
  omega

theorem userAddr_pageAddr {d t o : ℕ} (h₁ : 1 ≤ d) (h₂ : d < 768) (ht : t < 1024) (ho : o < 4096) :
    UserAddr (pageAddr d t + o) := by
  simp only [UserAddr, pageAddr]
  omega

theorem pageAddr_inj {d t o d' t' o' : ℕ} (ht : t < 1024) (ho : o < 4096) (ht' : t' < 1024)
    (ho' : o' < 4096) (h : pageAddr d t + o = pageAddr d' t' + o') : d = d' ∧ t = t' ∧ o = o' := by
  simp only [pageAddr] at h
  omega

namespace Machine

variable {m m' m'' m₁ : Machine} {B D d t i a n o F P S f w va : ℕ} {L K : Set ℕ} {b : UInt8}

/-- What the loaded directory shows of its user part. -/
def view (m : Machine) : Bytes := fun va ↦ if UserAddr va then m.load8 va else none

theorem view_page (h₁ : 1 ≤ d) (h₂ : d < 768) (ht : t < 1024) (ho : o < 4096) :
    m.view (pageAddr d t + o) = (m.leaf m.dir d t).map fun F ↦ m.mem F o := by
  rw [view, if_pos (userAddr_pageAddr h₁ h₂ ht ho), load8, translate_page (by omega) ht ho, frameAt,
    Option.map_map]
  rfl

theorem view_eq_none (h : ¬ UserAddr va) : m.view va = none := if_neg h

theorem view_extends (m : Machine) : Extends m.view m.load8 := fun x b hb ↦ by
  rw [view] at hb
  split at hb
  · exact hb
  · cases hb

/-- Only pages of the loaded space are different in `m'`. -/
structure Pokes (L : Set ℕ) (m m' : Machine) : Prop where
  same : m' = { m with mem := m'.mem }
  mem : ∀ f, (∀ d t, ¬ m.Holds L (.leaf m.dir d t) f) → m'.mem f = m.mem f

namespace Pokes

theorem refl (L : Set ℕ) (m : Machine) : Pokes L m m := ⟨rfl, fun _ _ ↦ rfl⟩

theorem cr3 (h : Pokes L m m') : m'.cr3 = m.cr3 := by rw [h.same]
theorem dir (h : Pokes L m m') : m'.dir = m.dir := by rw [h.same]; rfl
theorem calls (h : Pokes L m m') : m'.calls = m.calls := by rw [h.same]
theorem lastAlloc (h : Pokes L m m') : m'.lastAlloc = m.lastAlloc := by rw [h.same]
theorem totalFrames (h : Pokes L m m') : m'.totalFrames = m.totalFrames := by rw [h.same]
theorem frameTest (h : Pokes L m m') (f : ℕ) : m'.frameTest f = m.frameTest f := by
  rw [h.same]
  rfl

theorem plain (h : Pokes L m m') (hled : m.Ledger B L K) :
    (∀ D ∈ L, m'.mem D = m.mem D) ∧ ∀ D ∈ L, ∀ d, 1 ≤ d → d < 768 → m.pde D d % 2 = 1 →
      m'.mem (m.pde D d / 4096) = m.mem (m.pde D d / 4096) := by
  refine ⟨fun D hD ↦ h.mem D fun d t hleaf ↦ (hled.leaf_plain hleaf).1 hD,
    fun D hD d h₁ h₂ hp ↦ h.mem _ fun d' t hleaf ↦ (hled.leaf_plain hleaf).2 D hD d h₁ h₂ hp rfl⟩

theorem holds (h : Pokes L m m') (hled : m.Ledger B L K) {o : Owner} {f : ℕ} :
    m'.Holds L o f ↔ m.Holds L o f := by
  obtain ⟨hdir, htable⟩ := h.plain hled
  exact Ledger.holds_congr (fun D hD d _ _ ↦ by rw [pde, hdir D hD, pde]) htable

theorem ledger (h : Pokes L m m') (hled : m.Ledger B L K) : m'.Ledger B L K := by
  obtain ⟨hdir, htable⟩ := h.plain hled
  refine hled.congr ?_ ?_ ?_ (fun D hD d ↦ by rw [pde, hdir D hD, pde]) htable fun f hf ↦ ?_
  · rw [h.lastAlloc, h.totalFrames]
    exact hled.lastAlloc
  · rw [h.cr3, h.dir, hled.cr3]
  · rw [h.dir]
    exact hled.loaded
  · rw [h.frameTest, hf]

theorem trans (h : Pokes L m m') (h' : Pokes L m' m'') (hled : m.Ledger B L K) : Pokes L m m'' where
  same := by
    rw [h'.same, h.same]
  mem f hf := by
    rw [h'.mem f fun d t hleaf ↦ ?_, h.mem f hf]
    rw [h.dir, h.holds hled] at hleaf
    exact hf d t hleaf

end Pokes

/-- A store into user memory. -/
theorem store8_view (h : m.Ledger B L K) (hva : m.view va ≠ none) (b : UInt8) :
    ∃ m', m.store8 va b = some m' ∧ Pokes L m m' ∧ m'.view = Function.update m.view va (some b) := by
  have huser : UserAddr va := by
    by_contra hno
    exact hva (view_eq_none hno)
  obtain ⟨d, t, o, h₁, h₂, ht, ho, rfl⟩ := huser.exists_pageAddr
  rw [view_page h₁ h₂ ht ho, Ne, Option.map_eq_none_iff] at hva
  obtain ⟨F, hF⟩ := Option.ne_none_iff_exists'.mp hva
  have hheld : m.Holds L (.leaf m.dir d t) F := ⟨h.loaded, h₁, h₂, ht, hF⟩
  set m' := m.setFrame F (Function.update (m.mem F) o b) with hm'
  have hpokes : Pokes L m m' := by
    refine ⟨rfl, fun f hf ↦ setFrame_mem_of_ne _ fun heq ↦ hf d t ?_⟩
    rwa [heq]
  refine ⟨m', store8_page (by omega) ht ho hF b, hpokes, ?_⟩
  funext x
  by_cases hx : UserAddr x
  · obtain ⟨d', t', o', h₁', h₂', ht', ho', rfl⟩ := hx.exists_pageAddr
    have hleaf : m'.leaf m'.dir d' t' = m.leaf m.dir d' t' := by
      refine Option.ext fun G ↦ ?_
      have := hpokes.holds h (o := .leaf m.dir d' t') (f := G)
      simpa [Holds, h.loaded, h₁', h₂', ht', hpokes.dir] using this
    rw [view_page h₁' h₂' ht' ho', hleaf, Function.update_apply]
    split
    · next heq =>
        obtain ⟨rfl, rfl, rfl⟩ := pageAddr_inj ht' ho' ht ho heq
        rw [hF, Option.map_some, hm', setFrame_mem_self, Function.update_self]
    · next hne =>
        rw [view_page h₁' h₂' ht' ho']
        refine Option.map_congr fun G hG ↦ ?_
        by_cases hGF : G = F
        · subst hGF
          have := h.unique _ (.leaf m.dir d' t') _ hheld ⟨h.loaded, h₁', h₂', ht', hG⟩
          simp only [Owner.leaf.injEq, true_and] at this
          obtain ⟨rfl, rfl⟩ := this
          have hoo : o' ≠ o := fun heq ↦ hne (by rw [heq])
          rw [hm', setFrame_mem_self, Function.update_of_ne hoo]
        · rw [hm', setFrame_mem_of_ne _ hGF]
  · have hne : x ≠ pageAddr d t + o := fun heq ↦ hx (heq ▸ huser)
    rw [view_eq_none hx, Function.update_of_ne hne, view_eq_none hx]

/-- The pages of the loaded space do not move. -/
theorem Pokes.leaf (h : Pokes L m m') (hled : m.Ledger B L K) (h₁ : 1 ≤ d) (h₂ : d < 768)
    (ht : i < 1024) : m'.leaf m.dir d i = m.leaf m.dir d i := by
  refine Option.ext fun G ↦ ?_
  have := h.holds hled (o := .leaf m.dir d i) (f := G)
  simpa [Holds, hled.loaded, h₁, h₂, ht] using this

theorem Pokes.translate (h : Pokes L m m') (hled : m.Ledger B L K) (hva : UserAddr va) :
    m'.translate va = m.translate va := by
  obtain ⟨d, t, o, h₁, h₂, ht, ho, rfl⟩ := hva.exists_pageAddr
  rw [translate_page (by omega) ht ho, translate_page (by omega) ht ho, frameAt, frameAt, h.dir,
    h.leaf hled h₁ h₂ ht]

theorem userAddr_of_view (h : m.view va ≠ none) : UserAddr va := by
  by_contra hno
  exact h (view_eq_none hno)

/-- The user part of the space, and memory `κ` that no store into it changes. -/
theorem Ledger.mirrors (h : m.Ledger B L K) {κ : Bytes}
    (hκ : ∀ m', Pokes L m m' → Extends (beside m'.view κ) m'.load8) :
    Mirrors (fun m' μ ↦ Pokes L m m' ∧ m'.view = μ) κ where
  load8 := by
    rintro m' _ ⟨hpokes, rfl⟩
    exact hκ m' hpokes
  store8 := by
    rintro m' _ x b ⟨hpokes, rfl⟩ hx
    obtain ⟨m'', hrun, hpokes', hview⟩ := store8_view (hpokes.ledger h) hx b
    exact ⟨m'', hrun, ⟨hpokes.trans hpokes' h, hview⟩,
      fun y hy ↦ hpokes'.translate (hpokes.ledger h) (userAddr_of_view hy)⟩

theorem Ledger.mirrors_view (h : m.Ledger B L K) :
    Mirrors (fun m' μ ↦ Pokes L m m' ∧ m'.view = μ) (fun _ ↦ none) :=
  h.mirrors fun m' _ ↦ by rw [beside_none]; exact view_extends m'

theorem memcpyFrom_view (h : m.Ledger B L K) (hdef : Defined m.view va n) (src : ℕ → UInt8)
    (off : ℕ) : ∃ m', m.memcpyFrom va src off n = some m' ∧ Pokes L m m' ∧
      m'.view = fill m.view va n fun k ↦ src ((off + k) % 2 ^ 32) :=
  h.mirrors_view.memcpyFrom ⟨Pokes.refl L m, rfl⟩ hdef src off

theorem memset_view (h : m.Ledger B L K) (hdef : Defined m.view va n) (v : UInt8) :
    ∃ m', m.memset va v n = some m' ∧ Pokes L m m' ∧ m'.view = fill m.view va n fun _ ↦ v :=
  h.mirrors_view.memset ⟨Pokes.refl L m, rfl⟩ hdef v

theorem store32_view (h : m.Ledger B L K) (hdef : Defined m.view va 4) (w : ℕ) :
    ∃ m', m.store32 va w = some m' ∧ Pokes L m m' ∧ m'.view = write32 m.view va w :=
  h.mirrors_view.store32 ⟨Pokes.refl L m, rfl⟩ hdef w

end Machine

end EclipseOS
