import EclipseOS.Lib.Loops
import EclipseOS.Initrd

/-!
# The walk over an archive

`initrd_initialize` goes from header to header.  The number of files bounds the
walk, but only regular files are counted, and the step is a word that a size
field can make zero.
-/

namespace EclipseOS

namespace Initrd

variable {mem : ℕ → UInt8} {location h n k ptr size : ℕ} {files : List FsNode}

/-- A header the walk does not stop at. -/
def isHeader (mem : ℕ → UInt8) (h : ℕ) : Prop := mem h ≠ 0 ∧ isUstar mem h = true

/-- One turn of the loop, or `none` where it ends. -/
def walkStep (mem : ℕ → UInt8) (s : ℕ × List FsNode) : Option (ℕ × List FsNode) :=
  if MAX_FILES ≤ s.2.length then none
  else if mem s.1 = 0 then none
  else if !isUstar mem s.1 then none
  else
    let size := octalToInt mem (s.1 + USTAR_SIZE) 12 0
    some ((s.1 + 512 + (size + 511) % 2 ^ 32 / 512 * 512) % 2 ^ 32,
      if isRegular (mem (s.1 + USTAR_TYPEFLAG)) then s.2 ++ [fileNode mem s.1 size] else s.2)

theorem walk_succ (mem : ℕ → UInt8) (fuel ptr : ℕ) (files : List FsNode) :
    walk mem (fuel + 1) ptr files = match walkStep mem (ptr, files) with
      | none => some files
      | some s => walk mem fuel s.1 s.2 := by
  rw [walk, walkStep]
  split
  · rfl
  · split
    · rfl
    · split <;> rfl

/-- With enough fuel the walk is the loop. -/
theorem walk_returns_iff :
    (∃ fuel files', walk mem fuel ptr files = some files') ↔ Loop.Ends (walkStep mem) (ptr, files) := by
  constructor
  · rintro ⟨fuel, files', hwalk⟩
    refine ⟨fuel, ?_⟩
    induction fuel generalizing ptr files with
    | zero => exact nomatch hwalk
    | succ fuel ih =>
        rw [walk_succ] at hwalk
        rw [Loop.turns_succ']
        cases hstep : walkStep mem (ptr, files) with
        | none => rfl
        | some s =>
            rw [hstep] at hwalk
            exact ih hwalk
  · rintro ⟨fuel, hends⟩
    refine ⟨fuel, ?_⟩
    induction fuel generalizing ptr files with
    | zero => exact nomatch hends
    | succ fuel ih =>
        rw [walk_succ]
        rw [Loop.turns_succ'] at hends
        cases hstep : walkStep mem (ptr, files) with
        | none => exact ⟨files, rfl⟩
        | some s =>
            rw [hstep] at hends
            exact ih hends

/-! ## Size fields as numbers -/

/-- The number that the octal digits stand for. -/
def octalField (mem : ℕ → UInt8) (s : ℕ) : ℕ → ℕ → ℕ
  | 0, v => v
  | len + 1, v =>
      if 0x30 ≤ mem s ∧ mem s ≤ 0x37 then octalField mem (s + 1) len (v * 8 + ((mem s).toNat - 0x30))
      else v

theorem octalToInt_eq (mem : ℕ → UInt8) (s len v : ℕ) :
    octalToInt mem s len (v % 2 ^ 32) = octalField mem s len v % 2 ^ 32 := by
  induction len generalizing s v with
  | zero => rfl
  | succ len ih =>
      rw [octalToInt, octalField]
      split
      · rw [← ih]
        congr 1
        omega
      · rfl

/-- What the header at `h` says about its size. -/
def fieldSize (mem : ℕ → UInt8) (h : ℕ) : ℕ := octalField mem (h + USTAR_SIZE) 12 0

/-- Header and padded data. -/
def stride (mem : ℕ → UInt8) (h : ℕ) : ℕ := 512 + (fieldSize mem h + 511) / 512 * 512

/-- Headers as the archive lays them out from `location` on, with the regular
files before each. -/
inductive Laid (mem : ℕ → UInt8) (location : ℕ) : ℕ → ℕ → Prop
  | first : Laid mem location location 0
  | next {h n : ℕ} (hlaid : Laid mem location h n) (hn : n < MAX_FILES) (hh : isHeader mem h) :
      Laid mem location (h + stride mem h)
        (if isRegular (mem (h + USTAR_TYPEFLAG)) then n + 1 else n)

/-- Every entry ends inside the address space. -/
def FitsAddressSpace (mem : ℕ → UInt8) (location : ℕ) : Prop :=
  ∀ h n, Laid mem location h n → n < MAX_FILES → isHeader mem h → h + stride mem h < 2 ^ 32

/-- The walk ends, moves by natural numbers and sees no header twice. -/
structure WalkSound (mem : ℕ → UInt8) (location : ℕ) : Prop where
  ends : ∃ fuel files, walk mem fuel location [] = some files
  natural : ∀ k s t, Loop.turns (walkStep mem) (location, []) k = some s → walkStep mem s = some t →
    t.1 = s.1 + stride mem s.1
  apart : ∀ k l s t, k < l → Loop.turns (walkStep mem) (location, []) k = some s →
    Loop.turns (walkStep mem) (location, []) l = some t → s.1 ≠ t.1

/-- One turn: it needs a header, and counts the regular files. -/
theorem walkStep_eq_some {s t : ℕ × List FsNode} (hstep : walkStep mem s = some t) :
    s.2.length < MAX_FILES ∧ isHeader mem s.1 ∧
      t.1 = (s.1 + 512 + (fieldSize mem s.1 % 2 ^ 32 + 511) % 2 ^ 32 / 512 * 512) % 2 ^ 32 ∧
      t.2.length = if isRegular (mem (s.1 + USTAR_TYPEFLAG)) then s.2.length + 1 else s.2.length := by
  have hsize := octalToInt_eq mem (s.1 + USTAR_SIZE) 12 0
  rw [Nat.zero_mod] at hsize
  rw [walkStep] at hstep
  split at hstep
  · exact nomatch hstep
  · next hcount =>
    split at hstep
    · exact nomatch hstep
    · next hname =>
      split at hstep
      · exact nomatch hstep
      · next hmagic =>
        obtain rfl := Option.some.inj hstep
        refine ⟨not_le.mp hcount, ⟨hname, by simpa using hmagic⟩, ?_, ?_⟩
        · dsimp only
          rw [hsize, fieldSize]
        · dsimp only
          split <;> simp

theorem walkStep_of_header {s : ℕ × List FsNode} (hcount : s.2.length < MAX_FILES)
    (hh : isHeader mem s.1) : ∃ t, walkStep mem s = some t := by
  rw [walkStep, if_neg (not_le.mpr hcount), if_neg hh.1, if_neg (by simp [hh.2])]
  exact ⟨_, rfl⟩

/-- The turn goes to the next entry just when that is below 4 GiB. -/
theorem walkStep_natural_iff {s t : ℕ × List FsNode} (hstep : walkStep mem s = some t) :
    t.1 = s.1 + stride mem s.1 ↔ s.1 + stride mem s.1 < 2 ^ 32 := by
  obtain ⟨-, -, hptr, -⟩ := walkStep_eq_some hstep
  have hlt : t.1 < 2 ^ 32 := by
    rw [hptr]
    exact Nat.mod_lt _ (by norm_num)
  constructor
  · intro heq
    rwa [← heq]
  · intro hfits
    rw [stride] at hfits ⊢
    rw [hptr, Nat.mod_eq_of_lt (show fieldSize mem s.1 < 2 ^ 32 by omega),
      Nat.mod_eq_of_lt (show fieldSize mem s.1 + 511 < 2 ^ 32 by omega), Nat.mod_eq_of_lt (by omega)]
    omega

/-- The walk is sound just when the archive stays below 4 GiB. -/
theorem walkSound_iff (hloc : location < 2 ^ 32) :
    WalkSound mem location ↔ FitsAddressSpace mem location := by
  constructor
  · intro hsound h n hlaid
    have hvisit : ∃ k s, Loop.turns (walkStep mem) (location, []) k = some s ∧ s.1 = h ∧
        s.2.length = n := by
      induction hlaid with
      | first => exact ⟨0, (location, []), rfl, rfl, rfl⟩
      | next _ hn hh ih =>
          obtain ⟨k, s, hk, rfl, rfl⟩ := ih
          obtain ⟨t, hstep⟩ := walkStep_of_header hn hh
          refine ⟨k + 1, t, by rw [Loop.turns_succ, hk, Option.bind_some, hstep],
            hsound.natural k s t hk hstep, (walkStep_eq_some hstep).2.2.2⟩
    intro hn hh
    obtain ⟨k, s, hk, rfl, rfl⟩ := hvisit
    obtain ⟨t, hstep⟩ := walkStep_of_header hn hh
    exact (walkStep_natural_iff hstep).mp (hsound.natural k s t hk hstep)
  · intro hfits
    set P := fun s : ℕ × List FsNode ↦ s.1 < 2 ^ 32 ∧ Laid mem location s.1 s.2.length with hP
    have hnatural : ∀ s t, P s → walkStep mem s = some t → t.1 = s.1 + stride mem s.1 := by
      intro s t hs hstep
      obtain ⟨hcount, hh, -⟩ := walkStep_eq_some hstep
      exact (walkStep_natural_iff hstep).mpr (hfits s.1 _ hs.2 hcount hh)
    have hkeep : ∀ s t, P s → walkStep mem s = some t → P t := by
      intro s t hs hstep
      obtain ⟨hcount, hh, -, hlen⟩ := walkStep_eq_some hstep
      have heq := hnatural s t hs hstep
      refine ⟨?_, ?_⟩
      · rw [heq]
        exact hfits s.1 _ hs.2 hcount hh
      · rw [heq, hlen]
        exact hs.2.next hcount hh
    have hgrow : ∀ s t, P s → walkStep mem s = some t → s.1 < t.1 := by
      intro s t hs hstep
      rw [hnatural s t hs hstep, stride]
      omega
    have hstart : P (location, []) := ⟨hloc, .first⟩
    have hturn : ∀ k s, Loop.turns (walkStep mem) (location, []) k = some s → P s :=
      fun k s hk ↦ Loop.turns_induction hstart hkeep hk
    refine ⟨walk_returns_iff.mpr (Loop.ends_of_measure Prod.fst (2 ^ 32) hstart hkeep hgrow
      fun s hs ↦ hs.1.le), fun k s t hk ↦ hnatural s t (hturn k s hk), fun k l s t hkl hk hl ↦ ?_⟩
    apply Nat.ne_of_lt
    obtain ⟨d, rfl⟩ := Nat.exists_eq_add_of_lt hkl
    rw [Nat.add_assoc, Loop.turns_add hk, Loop.turns_succ, Option.bind_eq_some_iff] at hl
    obtain ⟨u, hu, hut⟩ := hl
    have hmono : s.1 ≤ u.1 ∧ P u := Loop.turns_induction (P := fun u ↦ s.1 ≤ u.1 ∧ P u)
      ⟨le_rfl, hturn k s hk⟩ (fun a b hab hstep ↦ ⟨hab.1.trans (hgrow a b hab.2 hstep).le,
        hkeep a b hab.2 hstep⟩) hu
    exact hmono.1.trans_lt (hgrow u t hmono.2 hut)

/-! ## A directory entry -/

/-- The header of a directory `d`, at 2 MiB, with the given digits as its size. -/
def directoryHeader (digits : List UInt8) (a : ℕ) : UInt8 :=
  let i := a - 0x200000
  if a < 0x200000 then 0
  else if i = 0 then 0x64
  else if i < USTAR_SIZE then 0
  else if i < USTAR_TYPEFLAG then digits.getD (i - USTAR_SIZE) 0
  else if i = USTAR_TYPEFLAG then 0x35
  else if i < USTAR_MAGIC then 0
  else ([0x75, 0x73, 0x74, 0x61, 0x72] : List UInt8).getD (i - USTAR_MAGIC) 0

/-- Eleven octal digits that stand for `2 ^ 32 - 512`. -/
def wrappingSize : List UInt8 := [0x33, 0x37, 0x37, 0x37, 0x37, 0x37, 0x37, 0x37, 0x30, 0x30, 0x30]

/-- The walk stays at the header for ever. -/
theorem walk_stuck : ¬ WalkSound (directoryHeader wrappingSize) 0x200000 := by
  have hsize : octalToInt (directoryHeader wrappingSize) (0x200000 + USTAR_SIZE) 12 0 =
      2 ^ 32 - 512 := by decide +kernel
  have hstep : walkStep (directoryHeader wrappingSize) (0x200000, []) = some (0x200000, []) := by
    rw [walkStep, if_neg (by decide), if_neg (by decide), if_neg (by decide)]
    dsimp only
    rw [hsize, if_neg (by decide)]
    norm_num
  intro hsound
  refine Loop.not_ends_of_progress (P := fun s ↦ s = (0x200000, [])) rfl (fun s hs ↦ ?_)
    (walk_returns_iff.mp hsound.ends)
  exact ⟨s, by rw [hs, hstep], hs⟩

/-- A directory of size 0 and nothing behind it. -/
theorem walk_sample : WalkSound (directoryHeader [0x30]) 0x200000 := by
  refine (walkSound_iff (by norm_num)).mpr fun h n hlaid hn hh ↦ ?_
  have hstride : stride (directoryHeader [0x30]) 0x200000 = 512 := by decide +kernel
  have hends : ¬ isHeader (directoryHeader [0x30]) (0x200000 + 512) := by
    rintro ⟨hname, -⟩
    exact hname (by decide)
  have hplace : h = 0x200000 ∨ h = 0x200000 + 512 := by
    clear hn hh
    induction hlaid with
    | first => exact Or.inl rfl
    | next _ _ hh ih =>
        rcases ih with rfl | rfl
        · rw [hstride]
          exact Or.inr rfl
        · exact absurd hh hends
  rcases hplace with rfl | rfl
  · rw [hstride]
    norm_num
  · exact absurd hh hends

end Initrd

end EclipseOS
