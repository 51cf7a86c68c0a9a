import EclipseOS.Ledger
import EclipseOS.PageMap

/-!
# The user page of the small machine

Its directory has one user entry, whose table has one page.
-/

namespace EclipseOS

namespace Sample

open LittleEndian Machine

variable {free : Fin 4096} {d t f : ℕ} {o : Owner}

/-- The frames in use that are neither the directory, nor the table of the user page,
nor the page. -/
def kernelFrames : Set ℕ :=
  {f | (machine 0).frameTest f = true ∧ f ≠ 0 ∧ f ≠ 1 ∧ f ≠ 3 ∧ f ≠ 5}

theorem frameTest_machine (free : Fin 4096) (hf : f < 1024) : (machine free).frameTest f = true := by
  have hword : (machine free).frameBitmap (f / 32) = BitVec.allOnes 32 := if_pos (by omega)
  rw [frameTest, hword, and_bit_ne_zero _ (Nat.mod_lt _ (by norm_num)), BitVec.getLsbD_allOnes]
  exact decide_eq_true (Nat.mod_lt _ (by norm_num))

theorem user_pde (h₁ : 1 ≤ d) (h₂ : d < 768) :
    (machine free).pde 1 d = if d = 1 then 3 * 4096 + 7 else 0 := by
  rw [sample_pde, directory, entry, PAGE_SIZE]
  split_ifs <;> first | omega | rfl

theorem user_pte : (machine free).pte 1 1 t = if t = 0 then 5 * 4096 + 7 else 0 := by
  have hmem : (machine free).mem 3 = ofWords userTable := rfl
  rw [pte, user_pde le_rfl (by norm_num), if_pos rfl, show (3 * 4096 + 7) / 4096 = 3 by norm_num, hmem,
    word_ofWords, userTable]
  split_ifs <;> rfl

theorem heap_pte : (machine free).pte 1 768 t = heapTable t := by
  have hmem : (machine free).mem 4 = ofWords heapTable := rfl
  rw [pte, sample_pde, show directory 768 / 4096 = 4 from rfl, hmem, word_ofWords]
  refine Nat.mod_eq_of_lt ?_
  rw [heapTable, entry, PAGE_SIZE]
  split_ifs <;> omega

theorem low_pte (ht : t < 1024) : (machine free).pte 1 0 t = t * 4096 + 3 := by
  have hmem : (machine free).mem 2 = ofWords fun t ↦ entry t 3 := rfl
  rw [pte, sample_pde, show directory 0 / 4096 = 2 from rfl, hmem, word_ofWords]
  exact Nat.mod_eq_of_lt (by rw [entry, PAGE_SIZE]; omega)

/-- The directory, the table and the page are the only frames of user memory. -/
theorem user_holds (ho : (machine free).Holds {1} o f) :
    o = .dir 1 ∧ f = 1 ∨ o = .table 1 1 ∧ f = 3 ∨ o = .leaf 1 1 0 ∧ f = 5 := by
  cases o with
  | dir D =>
      obtain ⟨rfl, rfl⟩ := ho
      exact Or.inl ⟨rfl, rfl⟩
  | table D d =>
      obtain ⟨rfl, h₁, h₂, hp, rfl⟩ := ho
      rw [user_pde h₁ h₂] at hp ⊢
      split_ifs at hp ⊢ with hd
      subst hd
      exact Or.inr (Or.inl ⟨rfl, rfl⟩)
  | leaf D d t =>
      obtain ⟨rfl, h₁, h₂, -, hleaf⟩ := ho
      obtain ⟨hp, hq, rfl⟩ := leaf_eq_some.mp hleaf
      obtain rfl : d = 1 := by
        by_contra hd
        rw [user_pde h₁ h₂, if_neg hd] at hp
        exact absurd hp (by norm_num)
      rw [user_pte] at hq ⊢
      split_ifs at hq ⊢ with ht
      subst ht
      exact Or.inr (Or.inr ⟨rfl, rfl⟩)

theorem machine_ledger (free : Fin 4096) : (machine free).Ledger 1 {1} kernelFrames := by
  have hentry : ∀ i, KernelEntry i → (machine free).pde 1 i % 2 = 1 →
      (machine free).pde 1 i / 4096 = 2 ∨ (machine free).pde 1 i / 4096 = 4 := by
    intro i hi hp
    rw [sample_pde, directory] at hp ⊢
    obtain rfl | hi := hi
    · exact Or.inl rfl
    · by_cases h768 : i = 768
      · subst h768
        exact Or.inr rfl
      · rw [if_neg (by omega), if_neg (by omega), if_neg h768, if_neg (by omega)] at hp
        exact absurd hp (by norm_num)
  have hslot : (machine free).pde 1 1022 = 0 := sample_pde free 1022
  refine ⟨Nat.zero_le _, by rw [sample_dir]; rfl, sample_dir free, rfl, fun D hD ↦ ?_,
    fun o o' f ho ho' ↦ ?_, fun o f ho ↦ ?_, fun f hf ↦ hf.1, fun D hD i _ ↦ ?_, fun i hi hp ↦ ?_,
    fun i _ _ _ hp' ↦ ?_, Or.inr rfl⟩
  · rw [Set.mem_singleton_iff.mp hD, sample_pde]
    exact ⟨rfl, rfl⟩
  · obtain ⟨rfl, rfl⟩ | ⟨rfl, rfl⟩ | ⟨rfl, rfl⟩ := user_holds ho <;>
      obtain ⟨rfl, h⟩ | ⟨rfl, h⟩ | ⟨rfl, h⟩ := user_holds ho' <;> first | rfl | omega
  · obtain ⟨-, rfl⟩ | ⟨-, rfl⟩ | ⟨-, rfl⟩ := user_holds ho
    · exact ⟨frameTest_machine free (by norm_num), fun hf ↦ hf.2.2.1 rfl⟩
    · exact ⟨frameTest_machine free (by norm_num), fun hf ↦ hf.2.2.2.1 rfl⟩
    · exact ⟨frameTest_machine free (by norm_num), fun hf ↦ hf.2.2.2.2 rfl⟩
  · rw [Set.mem_singleton_iff.mp hD]
  · obtain h | h := hentry i hi hp
    · rw [h]
      exact ⟨frameTest_machine 0 (by norm_num), by norm_num⟩
    · rw [h]
      exact ⟨frameTest_machine 0 (by norm_num), by norm_num⟩
  · rw [hslot] at hp'
    exact absurd hp' (by norm_num)

theorem machine_recursive (free : Fin 4096) : (machine free).Recursive :=
  (machine_ledger free).recursive

theorem user_mapped : (machine free).UserMapped 1 1 0 := by
  rw [UserMapped, user_pde le_rfl (by norm_num), user_pte, if_pos rfl, if_pos rfl]
  decide

end Sample

end EclipseOS
