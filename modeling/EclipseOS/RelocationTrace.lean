import EclipseOS.Confinement

/-!
# Where the relocation pass reads and writes

The records of the pass, beside what the described image says: the first access
that leaves the memory is named there, and a pass that faults ends with it.
-/

namespace EclipseOS

open LittleEndian Access

namespace Machine

variable {m m' m₁ : Machine} {B D d t i n off base v x : ℕ} {L K : Set ℕ}
variable {data : Image} {κ μ ν : Bytes}

/-! ## Accesses that end a run -/

/-- A byte that is in memory, for reads and for stores. -/
def InMemory (κ μ : Bytes) : Access → Prop
  | .read x => beside μ κ x ≠ none
  | .write x => μ x ≠ none
  | _ => True

/-- Nothing is mapped at `x` when the user part of the loaded space is `μ`. -/
def Unmapped (m : Machine) (μ : Bytes) (x : ℕ) : Prop :=
  UserAddr x ∧ μ x = none ∨ KernelEntry (x >>> 22) ∧ m.translate x = none

/-- An access to the word at `va` faults. -/
def Faults (m : Machine) (μ : Bytes) (va : ℕ) : Prop := ∃ k < 4, m.Unmapped μ ((va + k) % 2 ^ 32)

/-- Nothing comes after it: the access faults, or the loop goes on for ever. -/
def Stops (m : Machine) (μ : Bytes) : Fault → Prop
  | .read va => m.Faults μ va
  | .write va => m.Faults μ va
  | .endless => True

theorem load8_of_unmapped (h : m.Unmapped m.view v) : m.load8 v = none := by
  obtain ⟨huser, hnone⟩ | ⟨-, hnone⟩ := h
  · rwa [view, if_pos huser] at hnone
  · rw [load8, hnone, Option.map_none]

theorem load32_of_faults (h : m.Faults m.view v) : m.load32 v = none := by
  obtain ⟨k, hk, hunmapped⟩ := h
  have hnone := load8_of_unmapped hunmapped
  rw [load8, translate_congr_mod (Nat.mod_mod (v + k) _), ← load8] at hnone
  rw [load32]
  obtain rfl | rfl | rfl | rfl : k = 0 ∨ k = 1 ∨ k = 2 ∨ k = 3 := by omega
  · rw [Nat.add_zero] at hnone
    simp [hnone]
  · simp [hnone]
  · simp [hnone]
  · simp [hnone]

theorem Pokes.view_eq_none (h : Pokes L m m') (hled : m.Ledger B L K) (x : ℕ) :
    m'.view x = none ↔ m.view x = none := by
  by_cases hx : UserAddr x
  · rw [view, view, if_pos hx, if_pos hx, load8, load8, h.translate hled hx, Option.map_eq_none_iff,
      Option.map_eq_none_iff]
  · rw [Machine.view_eq_none hx, Machine.view_eq_none hx]

theorem Unmapped.congr (hμ : ∀ x, ν x = none ↔ μ x = none)
    (htranslate : ∀ x, KernelEntry (x >>> 22) → m'.translate x = m.translate x)
    (h : m.Unmapped μ v) : m'.Unmapped ν v :=
  h.imp (fun h ↦ ⟨h.1, (hμ v).mpr h.2⟩) fun h ↦ ⟨h.1, by rw [htranslate v h.1, h.2]⟩

theorem Stops.congr {e : Fault} (hμ : ∀ x, ν x = none ↔ μ x = none)
    (htranslate : ∀ x, KernelEntry (x >>> 22) → m'.translate x = m.translate x)
    (h : m.Stops μ e) : m'.Stops ν e := by
  have hfaults : ∀ {va}, m.Faults μ va → m'.Faults ν va := fun ⟨k, hk, h⟩ ↦
    ⟨k, hk, h.congr hμ htranslate⟩
  cases e with
  | read va => exact hfaults h
  | write va => exact hfaults h
  | endless => exact trivial

/-- Patches map nothing and unmap nothing. -/
theorem Pokes.stops (h : Pokes L m m') (hled : m.Ledger B L K) {e : Fault} (he : m.Stops m.view e) :
    m'.Stops m'.view e :=
  he.congr (h.view_eq_none hled) fun _ hx ↦ hled.translate_kernel h.dir
    (fun i hi ↦ (h.grows hled).entry _ hled.loaded i (Or.inl hi)) (fun _ ↦ h.kernel hled) hx

/-- Loading keeps what the kernel has mapped. -/
theorem Loads.stops (h : Loads B L K m m') (hled : m.Ledger B L K) {e : Fault} :
    m.Stops μ e → m'.Stops μ e := by
  obtain ⟨X, hX⟩ := h.grows
  exact Stops.congr (fun _ ↦ Iff.rfl) fun _ hx ↦ hled.translate_kernel h.dir
    (fun i hi ↦ hX.entry _ hled.loaded i (Or.inl hi)) h.kernel hx

theorem view_window (x : ℕ) (hx : 2 ^ 32 - 2 ^ 22 ≤ x) : m.view x = none :=
  view_eq_none fun huser ↦ by
    have := huser.2
    omega

/-- The recursive window is no memory of the kernel. -/
theorem beside_window (hκ : Extends κ (m.kernelView K)) (x : ℕ) (hx : 2 ^ 32 - 2 ^ 22 ≤ x) :
    beside m.view κ x = none := by
  refine beside_eq_none.mpr ⟨view_window x hx, ?_⟩
  by_contra hsome
  obtain ⟨b, hb⟩ := Option.ne_none_iff_exists'.mp hsome
  have hb' := hκ x b hb
  rw [kernelView, if_neg] at hb'
  · cases hb'
  · rw [KernelEntry, Nat.shiftRight_eq_div_pow]
    omega

theorem readBytes_mod (va n : ℕ) : readBytes (va % 2 ^ 32) n = readBytes va n :=
  List.map_congr_left fun k _ ↦ by rw [Nat.mod_add_mod]

theorem readBytes_inside (hκ : Extends κ (m.kernelView K))
    (h : Defined (beside m.view κ) (v % 2 ^ 32) 4) :
    ∀ a ∈ readBytes v 4, InMemory κ m.view a := by
  intro a ha
  rw [← readBytes_mod, mem_readBytes] at ha
  obtain ⟨k, hk, rfl⟩ := ha
  have := h k hk
  have hlt : v % 2 ^ 32 + k < 2 ^ 32 := by
    by_contra hle
    exact this (beside_window hκ _ (by omega))
  rwa [← Nat.mod_eq_of_lt hlt] at this

theorem writeBytes_inside (κ : Bytes) (h : Defined m.view v 4) :
    ∀ a ∈ writeBytes v 4, InMemory κ m.view a := by
  intro a ha
  rw [mem_writeBytes] at ha
  obtain ⟨k, hk, rfl⟩ := ha
  have := h k hk
  have hlt : v + k < 2 ^ 32 := by
    by_contra hle
    exact this (view_window _ (by omega))
  rwa [← Nat.mod_eq_of_lt hlt] at this

/-- One of the four bytes is missing, and its address does not wrap. -/
theorem exists_outside (hμ : ∀ x, 2 ^ 32 - 2 ^ 22 ≤ x → μ x = none) (hv : v < 2 ^ 32)
    (h : ¬ Defined μ v 4) : ∃ k < 4, μ ((v + k) % 2 ^ 32) = none := by
  simp only [Defined, not_forall, not_not] at h
  obtain ⟨k, hk, hnone⟩ := h
  by_cases hlt : v + k < 2 ^ 32
  · exact ⟨k, hk, by rwa [Nat.mod_eq_of_lt hlt]⟩
  · exact ⟨0, by norm_num, hμ _ (by omega)⟩

theorem readWord_cases (μ : Bytes) (a : ℕ) (e : Fault) :
    (∃ w, readWord μ a e = .ok w ∧ Defined μ a 4) ∨ (readWord μ a e = .error e ∧ ¬ Defined μ a 4) := by
  by_cases hdef : Defined μ a 4
  · obtain ⟨w, hw⟩ := Option.ne_none_iff_exists'.mp fun h ↦ read32_eq_none.mp h hdef
    exact Or.inl ⟨w, readWord_eq_ok.mpr hw, hdef⟩
  · exact Or.inr ⟨readWord_eq_error.mpr ⟨rfl, hdef⟩, hdef⟩

/-- Tags with a case in the `switch`. -/
abbrev HasCase (tag : ℕ) : Prop := tag = DT_REL ∨ tag = DT_RELSZ ∨ tag = DT_RELENT

/-- One turn of the `switch`: it is a read of `d_val` or nothing. -/
theorem dynEntry_cases (μ : Bytes) (base : ℕ) (info : DynInfo) (d tag : ℕ) :
    (∃ r, dynEntryBytes μ base info d tag = .ok r ∧ (HasCase tag → Defined μ (d + 4) 4)) ∨
    (dynEntryBytes μ base info d tag = .error (.read (d + 4)) ∧ HasCase tag ∧
      ¬ Defined μ (d + 4) 4) := by
  have hcase : ∀ f : ℕ → DynInfo,
      (∃ r, (readWord μ (d + 4) (.read (d + 4))).map f = .ok r ∧ Defined μ (d + 4) 4) ∨
      ((readWord μ (d + 4) (.read (d + 4))).map f = .error (.read (d + 4)) ∧
        ¬ Defined μ (d + 4) 4) := by
    intro f
    obtain ⟨w, hw, hdef⟩ | ⟨he, hdef⟩ := readWord_cases μ (d + 4) (.read (d + 4))
    · exact Or.inl ⟨f w, map_eq_ok.mpr ⟨w, hw, rfl⟩, hdef⟩
    · exact Or.inr ⟨map_eq_error.mpr he, hdef⟩
  by_cases htag : HasCase tag
  · obtain ⟨f, hf⟩ : ∃ f : ℕ → DynInfo, dynEntryBytes μ base info d tag =
        (readWord μ (d + 4) (.read (d + 4))).map f := by
      rw [dynEntryBytes]
      obtain h | h | h := htag <;> subst h
      · exact ⟨_, if_pos rfl⟩
      · exact ⟨_, by rw [if_neg (by decide), if_pos rfl]⟩
      · exact ⟨_, by rw [if_neg (by decide), if_neg (by decide), if_pos rfl]⟩
    rw [hf]
    obtain ⟨r, hr, hdef⟩ | ⟨he, hdef⟩ := hcase f
    · exact Or.inl ⟨r, hr, fun _ ↦ hdef⟩
    · exact Or.inr ⟨he, htag, hdef⟩
  · refine Or.inl ⟨info, ?_, fun h ↦ absurd h htag⟩
    obtain ⟨h₁, h₂, h₃⟩ := by simpa only [HasCase, not_or] using htag
    rw [dynEntryBytes, if_neg h₁, if_neg h₂, if_neg h₃]

/-! ## Runs that end early -/

theorem scanDynamic_stops (hκ : Extends κ (m.kernelView K)) {info : DynInfo} {fuel d : ℕ} {e : Fault}
    (hrun : scanBytes (beside m.view κ) base info fuel d = .error e) (he : m.Stops m.view e) :
    m.scanDynamic base info fuel d = none := by
  induction fuel generalizing info d with
  | zero => rfl
  | succ fuel ih =>
      rw [scanBytes, bind_eq_error] at hrun
      rw [scanDynamic]
      obtain hrun | ⟨tag, htag, hrun⟩ := hrun
      · obtain ⟨rfl, -⟩ := readWord_eq_error.mp hrun
        rw [load32_of_faults he]
        rfl
      · rw [load32_of_extends (extends_beside hκ) (readWord_eq_ok.mp htag), Option.bind_eq_bind,
          Option.bind_some]
        split at hrun
        · cases hrun
        · next hnull =>
            rw [if_neg hnull]
            rw [bind_eq_error] at hrun
            obtain hrun | ⟨info', hentry, hrun⟩ := hrun
            · obtain ⟨r, hr, -⟩ | ⟨herr, hcase, -⟩ := dynEntry_cases (beside m.view κ) base info d tag
              · rw [hr] at hrun
                cases hrun
              · rw [herr] at hrun
                cases hrun
                have hnone : m.dynEntry base info d tag = none := by
                  have hval := load32_of_faults he
                  rw [dynEntry, hval]
                  obtain rfl | rfl | rfl := hcase <;> rfl
                rw [hnone]
                rfl
            · rw [dynEntry_of_extends (extends_beside hκ) hentry, Option.bind_eq_bind,
                Option.bind_some]
              exact ih hrun

theorem relocateRecord_stops (hκ : Extends κ (m.kernelView K)) {a : ℕ} {e : Fault}
    (hrun : recordBytes κ m.view base a = .error e) (he : m.Stops m.view e) :
    m.relocateRecord base a = none := by
  rw [recordBytes, bind_eq_error] at hrun
  rw [relocateRecord]
  obtain hrun | ⟨rInfo, hinfo, hrun⟩ := hrun
  · obtain ⟨rfl, -⟩ := readWord_eq_error.mp hrun
    rw [← load32_mod, load32_of_faults he]
    rfl
  · have hload := load32_of_extends (extends_beside hκ) (readWord_eq_ok.mp hinfo)
    rw [load32_mod] at hload
    rw [hload, Option.bind_eq_bind, Option.bind_some]
    split at hrun
    · next htype =>
        rw [if_pos htype]
        rw [patchBytes, bind_eq_error] at hrun
        obtain hrun | ⟨rOffset, hoff, hrun⟩ := hrun
        · obtain ⟨rfl, -⟩ := readWord_eq_error.mp hrun
          rw [← load32_mod, load32_of_faults he]
          rfl
        · have hload' := load32_of_extends (extends_beside hκ) (readWord_eq_ok.mp hoff)
          rw [load32_mod] at hload'
          rw [hload', Option.bind_some]
          rw [bind_eq_error] at hrun
          obtain hrun | ⟨v, -, hrun⟩ := hrun
          · obtain ⟨rfl, -⟩ := readWord_eq_error.mp hrun
            rw [load32_of_faults he]
            rfl
          · cases hrun
    · cases hrun

theorem relocate_stops (h : m.Ledger B L K) (hκ : Extends κ (m.kernelView K)) {info : DynInfo}
    {fuel off : ℕ} {e : Fault} (hrun : relocateBytes κ m.view base info fuel off = .error e)
    (he : m.Stops m.view e) : m.relocate base info fuel off = none := by
  induction fuel generalizing m off with
  | zero => rfl
  | succ fuel ih =>
      rw [relocateBytes] at hrun
      rw [relocate_succ]
      split at hrun
      · next hlt =>
          rw [if_pos hlt]
          rw [bind_eq_error] at hrun
          obtain hrun | ⟨ν, hrecord, hrun⟩ := hrun
          · rw [relocateRecord_stops hκ hrun he, Option.bind_none]
          · obtain ⟨m₁, hstep, hpokes, hview⟩ := record_view h hκ hrecord
            rw [hstep, Option.bind_some]
            exact ih (hpokes.ledger h) (by rw [hpokes.kernelView h]; exact hκ)
              (by rw [hview]; exact hrun) (hpokes.stops h he)
      · cases hrun

theorem applyRelocations_stops (h : m.Ledger B L K) (hκ : Extends κ (m.kernelView K)) {e : Fault}
    (hrun : data.relocated base κ m.view = .error e) (he : m.Stops m.view e) :
    m.applyRelocations data base = none := by
  rw [Image.relocated] at hrun
  rw [applyRelocations]
  cases hdyn : dynamicHeader data with
  | none =>
      rw [hdyn] at hrun
      cases hrun
  | some j =>
      rw [hdyn] at hrun
      dsimp only at hrun ⊢
      split at hrun
      · cases hrun
      · next hzero =>
          rw [if_neg hzero]
          rw [bind_eq_error] at hrun
          obtain hrun | ⟨info, hscan, hrun⟩ := hrun
          · rw [scanDynamic_stops hκ hrun he]
            rfl
          · rw [scanDynamic_of_extends (extends_beside hκ) hscan, Option.bind_eq_bind,
              Option.bind_some]
            exact relocate_stops h hκ hrun he

/-! ## The record of the pass -/

/-- The record stays in memory unless the result says which access leaves it. -/
structure Explains {α : Type} (κ : Bytes) (m : Machine) (r : Except Fault α) (as : List Access) :
    Prop where
  writes : (∀ e, r = .error e → m.Stops m.view e) → (∀ va, r ≠ .error (.write va)) →
    ∀ x, .write x ∈ as → m.view x ≠ none
  reads : (∀ e, r = .error e → m.Stops m.view e) → (∀ va, r ≠ .error (.read va)) →
    ∀ x, .read x ∈ as → beside m.view κ x ≠ none
  write : (∃ va, r = .error (.write va)) → ∃ x, .write x ∈ as ∧ m.view x = none
  read : (∃ va, r = .error (.read va)) → ∃ x, .read x ∈ as ∧ beside m.view κ x = none

namespace Explains

variable {α : Type} {va : ℕ} {r : Except Fault α} {as front : List Access}

theorem of_inside (hin : ∀ a ∈ as, InMemory κ m.view a) (hread : ∀ va, r ≠ .error (.read va))
    (hwrite : ∀ va, r ≠ .error (.write va)) : Explains κ m r as where
  writes _ _ x := hin (.write x)
  reads _ _ x := hin (.read x)
  write hbad := hbad.elim fun va heq ↦ absurd heq (hwrite va)
  read hbad := hbad.elim fun va heq ↦ absurd heq (hread va)

theorem of_read (hx : .read x ∈ as) (hnone : beside m.view κ x = none)
    (hstops : m.Faults m.view va → ∀ x, .write x ∉ as) :
    Explains κ m (.error (.read va) : Except Fault α) as where
  writes hstop _ x hx := absurd hx (hstops (hstop _ rfl) x)
  reads _ hread := absurd rfl (hread va)
  write hbad := by simp at hbad
  read _ := ⟨x, hx, hnone⟩

theorem of_write (hx : .write x ∈ as) (hnone : m.view x = none)
    (hstops : m.Faults m.view va → ∀ x, .read x ∈ as → beside m.view κ x ≠ none) :
    Explains κ m (.error (.write va) : Except Fault α) as where
  writes _ hwrite := absurd rfl (hwrite va)
  reads hstop _ := hstops (hstop _ rfl)
  write _ := ⟨x, hx, hnone⟩
  read hbad := by simp at hbad

/-- Accesses before it that stay in memory. -/
theorem append (hin : ∀ a ∈ front, InMemory κ m.view a) (h : Explains κ m r as) :
    Explains κ m r (front ++ as) where
  writes hstop hwrite x hx := (List.mem_append.mp hx).elim (hin _) (h.writes hstop hwrite x)
  reads hstop hread x hx := (List.mem_append.mp hx).elim (hin _) (h.reads hstop hread x)
  write hbad := by
    obtain ⟨x, hx, hnone⟩ := h.write hbad
    exact ⟨x, List.mem_append_right _ hx, hnone⟩
  read hbad := by
    obtain ⟨x, hx, hnone⟩ := h.read hbad
    exact ⟨x, List.mem_append_right _ hx, hnone⟩

/-- The record of a pass that begins with patches. -/
theorem of_pokes (hled : m.Ledger B L K) (hpokes : Pokes L m m₁) (h : Explains κ m₁ r as) :
    Explains κ m r as := by
  have hview := hpokes.view_eq_none hled
  have hbeside : ∀ x, beside m₁.view κ x = none ↔ beside m.view κ x = none := fun x ↦ by
    rw [beside_eq_none, beside_eq_none, hview]
  have hstops : (∀ e, r = .error e → m.Stops m.view e) → ∀ e, r = .error e → m₁.Stops m₁.view e :=
    fun hstop e he ↦ hpokes.stops hled (hstop e he)
  refine ⟨fun hstop hwrite x hx ↦ ?_, fun hstop hread x hx ↦ ?_, fun hbad ↦ ?_, fun hbad ↦ ?_⟩
  · exact fun hnone ↦ h.writes (hstops hstop) hwrite x hx ((hview x).mpr hnone)
  · exact fun hnone ↦ h.reads (hstops hstop) hread x hx ((hbeside x).mpr hnone)
  · obtain ⟨x, hx, hnone⟩ := h.write hbad
    exact ⟨x, hx, (hview x).mp hnone⟩
  · obtain ⟨x, hx, hnone⟩ := h.read hbad
    exact ⟨x, hx, (hbeside x).mp hnone⟩

end Explains

theorem write_not_mem_readBytes (va n x : ℕ) : .write x ∉ readBytes va n := by
  simp [mem_readBytes]

theorem write_not_mem_scanTrace (m : Machine) (base fuel : ℕ) (info : DynInfo) (d x : ℕ) :
    .write x ∉ scanTrace m base info fuel d := by
  induction fuel generalizing info d with
  | zero => exact List.not_mem_nil
  | succ fuel ih =>
      intro hx
      rw [scanTrace, List.mem_append] at hx
      obtain hx | hx := hx
      · exact write_not_mem_readBytes _ _ _ hx
      split at hx
      · exact absurd hx List.not_mem_nil
      split at hx
      · exact absurd hx List.not_mem_nil
      rw [List.mem_append] at hx
      obtain hx | hx := hx
      · split at hx
        · exact write_not_mem_readBytes _ _ _ hx
        · exact absurd hx List.not_mem_nil
      split at hx
      · exact absurd hx List.not_mem_nil
      · exact ih _ _ hx

/-- The walk over the dynamic section reads in memory, or not, as the described
image says, and does not write. -/
theorem scan_trace (hκ : Extends κ (m.kernelView K)) (base fuel : ℕ) (info : DynInfo) {d : ℕ}
    (hd : d < 2 ^ 32) :
    Explains κ m (scanBytes (beside m.view κ) base info fuel d) (scanTrace m base info fuel d) ∧
      ∀ va, scanBytes (beside m.view κ) base info fuel d ≠ .error (.write va) := by
  induction fuel generalizing info d with
  | zero =>
      exact ⟨.of_inside (by simp [scanTrace]) (by simp [scanBytes]) (by simp [scanBytes]),
        by simp [scanBytes]⟩
  | succ fuel ih =>
      obtain ⟨tag, htag, hdef⟩ | ⟨he, hdef⟩ := readWord_cases (beside m.view κ) d (.read d)
      · have hload := load32_of_extends (extends_beside hκ) (readWord_eq_ok.mp htag)
        have hhead : ∀ a ∈ readBytes d 4, InMemory κ m.view a :=
          readBytes_inside hκ (by rwa [Nat.mod_eq_of_lt hd])
        by_cases hnull : tag = DT_NULL
        · have hscan : scanBytes (beside m.view κ) base info (fuel + 1) d = .ok info := by
            rw [scanBytes, htag]
            exact if_pos hnull
          have htrace : scanTrace m base info (fuel + 1) d = readBytes d 4 := by
            rw [scanTrace, hload]
            dsimp only
            rw [if_pos hnull, List.append_nil]
          rw [hscan, htrace]
          exact ⟨.of_inside hhead (by simp) (by simp), by simp⟩
        · have hlt : d + 4 < 2 ^ 32 := by
            by_contra hle
            exact hdef 0 (by norm_num) (beside_window hκ _ (by omega))
          obtain ⟨r, hr, hcase⟩ | ⟨he, hcase, hval⟩ := dynEntry_cases (beside m.view κ) base info d tag
          · have hscan : scanBytes (beside m.view κ) base info (fuel + 1) d =
                scanBytes (beside m.view κ) base r fuel ((d + DYN_SIZE) % 2 ^ 32) := by
              rw [scanBytes, htag]
              change (if tag = DT_NULL then _ else _) = _
              rw [if_neg hnull, hr]
              rfl
            have htrace : scanTrace m base info (fuel + 1) d = readBytes d 4 ++
                ((if HasCase tag then readBytes (d + 4) 4 else []) ++
                  scanTrace m base r fuel ((d + DYN_SIZE) % 2 ^ 32)) := by
              rw [scanTrace, hload]
              dsimp only
              rw [if_neg hnull, dynEntry_of_extends (extends_beside hκ) hr]
            have hval : ∀ a ∈ if HasCase tag then readBytes (d + 4) 4 else [],
                InMemory κ m.view a := by
              split
              · next htag' =>
                refine readBytes_inside hκ ?_
                rw [Nat.mod_eq_of_lt hlt]
                exact hcase htag'
              · exact fun a ha ↦ absurd ha List.not_mem_nil
            obtain ⟨hrest, hno⟩ := ih r (Nat.mod_lt (d + DYN_SIZE) (by norm_num))
            rw [hscan, htrace]
            exact ⟨(hrest.append hval).append hhead, hno⟩
          · have hscan : scanBytes (beside m.view κ) base info (fuel + 1) d =
                .error (.read (d + 4)) := by
              rw [scanBytes, htag]
              change (if tag = DT_NULL then _ else _) = _
              rw [if_neg hnull, he]
              rfl
            obtain ⟨k, hk, hnone⟩ := exists_outside (beside_window hκ) hlt hval
            rw [hscan]
            refine ⟨.of_read ?_ hnone fun _ ↦ write_not_mem_scanTrace _ _ _ _ _, by simp⟩
            rw [scanTrace, hload]
            dsimp only
            rw [if_neg hnull, if_pos hcase, List.mem_append, List.mem_append]
            exact Or.inr (Or.inl (mem_readBytes.mpr ⟨k, hk, rfl⟩))
      · have hscan : scanBytes (beside m.view κ) base info (fuel + 1) d = .error (.read d) := by
          rw [scanBytes, he]
          rfl
        obtain ⟨k, hk, hnone⟩ := exists_outside (beside_window hκ) hd hdef
        rw [hscan]
        refine ⟨.of_read ?_ hnone fun _ ↦ write_not_mem_scanTrace _ _ _ _ _, by simp⟩
        rw [scanTrace, List.mem_append]
        exact Or.inl (mem_readBytes.mpr ⟨k, hk, rfl⟩)

/-- One record: it is read and applied in memory, or the described image says
which access leaves it. -/
theorem record_trace (hκ : Extends κ (m.kernelView K)) (base a : ℕ) :
    (∃ ν, recordBytes κ m.view base a = .ok ν ∧
      ∀ e ∈ recordTrace m base a, InMemory κ m.view e) ∨
    (∃ va, recordBytes κ m.view base a = .error (.read va) ∧
      (∃ x, .read x ∈ recordTrace m base a ∧ beside m.view κ x = none) ∧
      (m.Faults m.view va → ∀ x, .write x ∉ recordTrace m base a)) ∨
    (∃ va, recordBytes κ m.view base a = .error (.write va) ∧
      (∃ x, .write x ∈ recordTrace m base a ∧ m.view x = none) ∧
      ∀ x, .read x ∈ recordTrace m base a → beside m.view κ x ≠ none) := by
  have hlt : ∀ a : ℕ, a % 2 ^ 32 < 2 ^ 32 := fun a ↦ Nat.mod_lt _ (by norm_num)
  rw [recordBytes, recordTrace]
  obtain ⟨rInfo, hinfo, hinfoDef⟩ | ⟨he, hdef⟩ := readWord_cases (beside m.view κ) ((a + 4) % 2 ^ 32)
    (.read ((a + 4) % 2 ^ 32))
  · have hload := load32_of_extends (extends_beside hκ) (readWord_eq_ok.mp hinfo)
    rw [load32_mod] at hload
    have hhead := readBytes_inside hκ hinfoDef
    rw [hinfo, hload]
    dsimp only [bind, Except.bind]
    by_cases htype : rInfo &&& 0xFF = R_386_RELATIVE
    · rw [if_pos htype, if_pos htype, patchBytes]
      obtain ⟨rOffset, hoff, hoffDef⟩ | ⟨he, hdef⟩ := readWord_cases (beside m.view κ) (a % 2 ^ 32)
        (.read (a % 2 ^ 32))
      · have hload' := load32_of_extends (extends_beside hκ) (readWord_eq_ok.mp hoff)
        rw [load32_mod] at hload'
        have hmid := readBytes_inside hκ hoffDef
        rw [hoff, hload']
        dsimp only [bind, Except.bind]
        set target := (base + rOffset) % 2 ^ 32 with htarget
        obtain ⟨v, hv, hvDef⟩ | ⟨he, hdef⟩ := readWord_cases m.view target (.write target)
        · rw [hv]
          refine Or.inl ⟨_, rfl, fun e he ↦ ?_⟩
          rw [List.mem_append, List.mem_append] at he
          obtain he | he | he := he
          · exact hhead e he
          · exact hmid e he
          · exact writeBytes_inside κ hvDef e he
        · obtain ⟨k, hk, hnone⟩ := exists_outside view_window (hlt _) hdef
          rw [he]
          refine Or.inr (Or.inr ⟨target, rfl, ⟨_, List.mem_append_right _ (List.mem_append_right _
            (mem_writeBytes.mpr ⟨k, hk, rfl⟩)), hnone⟩, fun x hx ↦ ?_⟩)
          rw [List.mem_append, List.mem_append] at hx
          obtain hx | hx | hx := hx
          · exact hhead _ hx
          · exact hmid _ hx
          · simp [mem_writeBytes] at hx
      · obtain ⟨k, hk, hnone⟩ := exists_outside (beside_window hκ) (hlt a) hdef
        rw [Nat.mod_add_mod] at hnone
        rw [he]
        refine Or.inr (Or.inl ⟨_, rfl, ⟨_, List.mem_append_right _ (List.mem_append_left _
          (mem_readBytes.mpr ⟨k, hk, rfl⟩)), hnone⟩, fun hfaults x hx ↦ ?_⟩)
        have hfault := load32_of_faults hfaults
        rw [load32_mod] at hfault
        rw [hfault, List.append_nil, List.mem_append] at hx
        exact hx.elim (write_not_mem_readBytes _ _ _) (write_not_mem_readBytes _ _ _)
    · rw [if_neg htype, if_neg htype, List.append_nil]
      exact Or.inl ⟨m.view, rfl, hhead⟩
  · obtain ⟨k, hk, hnone⟩ := exists_outside (beside_window hκ) (hlt _) hdef
    rw [Nat.mod_add_mod] at hnone
    rw [he]
    refine Or.inr (Or.inl ⟨_, rfl, ⟨_, List.mem_append_left _ (mem_readBytes.mpr ⟨k, hk, rfl⟩), hnone⟩,
      fun hfaults x hx ↦ ?_⟩)
    have hfault := load32_of_faults hfaults
    rw [load32_mod] at hfault
    rw [hfault, List.append_nil] at hx
    exact write_not_mem_readBytes _ _ _ hx

/-- The relocation loop likewise. -/
theorem relocate_trace (h : m.Ledger B L K) (hκ : Extends κ (m.kernelView K)) {info : DynInfo}
    {fuel off : ℕ} : Explains κ m (relocateBytes κ m.view base info fuel off)
      (relocateTrace m base info fuel off) := by
  induction fuel generalizing m off with
  | zero =>
      exact .of_inside (by simp [relocateTrace]) (by simp [relocateBytes]) (by simp [relocateBytes])
  | succ fuel ih =>
      by_cases hlt : off < info.relsz
      · have hrun : relocateBytes κ m.view base info (fuel + 1) off =
            (recordBytes κ m.view base (info.rel + off)).bind fun μ ↦
              relocateBytes κ μ base info fuel ((off + info.relent) % 2 ^ 32) := by
          rw [relocateBytes, if_pos hlt]
          rfl
        rw [hrun, relocateTrace, if_pos hlt]
        obtain ⟨ν, hrecord, hin⟩ | ⟨va, hrecord, ⟨x, hx, hnone⟩, hno⟩ |
            ⟨va, hrecord, ⟨x, hx, hnone⟩, hreads⟩ := record_trace hκ base (info.rel + off)
        · obtain ⟨m₁, hstep, hpokes, hview⟩ := record_view h hκ hrecord
          have hκ₁ : Extends κ (m₁.kernelView K) := by rwa [hpokes.kernelView h]
          have hrest : Explains κ m₁
              (relocateBytes κ m₁.view base info fuel ((off + info.relent) % 2 ^ 32))
              (relocateTrace m₁ base info fuel ((off + info.relent) % 2 ^ 32)) :=
            ih (hpokes.ledger h) hκ₁
          rw [hview] at hrest
          rw [hrecord, hstep]
          exact (hrest.of_pokes h hpokes).append hin
        · rw [hrecord]
          refine .of_read (List.mem_append_left _ hx) hnone fun hfaults x hx ↦ ?_
          rw [relocateRecord_stops hκ hrecord hfaults, List.append_nil] at hx
          exact hno hfaults x hx
        · rw [hrecord]
          refine .of_write (List.mem_append_left _ hx) hnone fun hfaults x hx ↦ ?_
          rw [relocateRecord_stops hκ hrecord hfaults, List.append_nil] at hx
          exact hreads x hx
      · rw [relocateBytes, if_neg hlt, relocateTrace, if_neg hlt]
        exact .of_inside (by simp) (by simp) (by simp)

/-- Dynamic entries and records are read, and words patched, in memory unless the
described image says otherwise. -/
theorem dynamic_trace (h : m.Ledger B L K) (hκ : Extends κ (m.kernelView K)) :
    Explains κ m (data.relocated base κ m.view) (dynamicTrace m data base) := by
  rw [Image.relocated, dynamicTrace]
  cases hdyn : dynamicHeader data with
  | none => exact .of_inside (by simp) (by simp) (by simp)
  | some i =>
      dsimp only
      set dyn := (base + data.pVaddr i) % 2 ^ 32 with hdynEq
      by_cases hzero : dyn = 0
      · rw [if_pos hzero, if_pos hzero]
        exact .of_inside (by simp) (by simp) (by simp)
      · rw [if_neg hzero, if_neg hzero]
        obtain ⟨hexplains, hno⟩ := scan_trace hκ base (2 ^ 32 + 1) ⟨0, 0, REL_SIZE⟩ (d := dyn)
          (Nat.mod_lt _ (by norm_num))
        have hnowrite := write_not_mem_scanTrace m base (2 ^ 32 + 1) ⟨0, 0, REL_SIZE⟩ dyn
        cases hscan : scanBytes (beside m.view κ) base ⟨0, 0, REL_SIZE⟩ (2 ^ 32 + 1) dyn with
        | ok info =>
            rw [hscan] at hexplains
            have hin : ∀ a ∈ scanTrace m base ⟨0, 0, REL_SIZE⟩ (2 ^ 32 + 1) dyn,
                InMemory κ m.view a := by
              intro a ha
              cases a with
              | read x => exact hexplains.reads (by simp) (by simp) x ha
              | write x => exact absurd ha (hnowrite x)
              | data x => exact trivial
              | map x => exact trivial
            rw [scanDynamic_of_extends (extends_beside hκ) hscan]
            exact (relocate_trace h hκ).append hin
        | error e =>
            rw [hscan] at hexplains
            cases e with
            | read va =>
                obtain ⟨x, hx, hnone⟩ := hexplains.read ⟨va, rfl⟩
                refine .of_read (List.mem_append_left _ hx) hnone fun hfaults x hx ↦ ?_
                rw [scanDynamic_stops hκ hscan hfaults, List.append_nil] at hx
                exact hnowrite x hx
            | write va => exact absurd hscan (hno va)
            | endless =>
                rw [scanDynamic_stops hκ hscan trivial, List.append_nil]
                exact ⟨fun _ _ x hx ↦ absurd hx (hnowrite x), fun _ _ ↦
                  hexplains.reads (fun e he ↦ by cases he; exact trivial) (by simp),
                  fun hbad ↦ by simp [bind, Except.bind] at hbad,
                  fun hbad ↦ by simp [bind, Except.bind] at hbad⟩

end Machine

end EclipseOS
