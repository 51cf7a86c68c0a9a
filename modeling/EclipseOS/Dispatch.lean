import EclipseOS.UserCalls

/-!
# The system call numbers

`syscall_handler` and its table, and the numbers and arguments that the wrappers
of the C library give to `syscall`.
-/

namespace EclipseOS

open Processor WordStack

def SYS_EXIT : ℕ := 0
def SYS_WRITE : ℕ := 1
def SYS_READ : ℕ := 2
def SYS_OPEN : ℕ := 3
def SYS_CLOSE : ℕ := 4
def SYS_GETPID : ℕ := 5
def SYS_SBRK : ℕ := 6
def SYS_FORK : ℕ := 7
def SYS_EXECVE : ℕ := 8
def SYS_WAIT : ℕ := 9
def SYSCALL_COUNT : ℕ := 10

/-- The handler that runs, with the arguments it does not discard. -/
inductive Service
  | exit (code : ℕ)
  | write (fd buf len : ℕ)
  | read (fd buf len : ℕ)
  | openFile (path : ℕ)
  | closeFile (fd : ℕ)
  | getpid
  | sbrk (increment : ℕ)
  | fork
  | execve (path : ℕ)
  | wait (status : ℕ)
  | enosys
  deriving DecidableEq

def syscallTable (number b c d : ℕ) : Option Service :=
  if number = SYS_EXIT then some (.exit b)
  else if number = SYS_WRITE then some (.write b c d)
  else if number = SYS_READ then some (.read b c d)
  else if number = SYS_OPEN then some (.openFile b)
  else if number = SYS_CLOSE then some (.closeFile b)
  else if number = SYS_GETPID then some .getpid
  else if number = SYS_SBRK then some (.sbrk b)
  else if number = SYS_EXECVE then some (.execve b)
  else if number = SYS_WAIT then some (.wait b)
  else none

/-- No handler takes more than three arguments. -/
def syscallHandler (r : Registers) : Service :=
  if r.eax = SYS_FORK then .fork
  else if SYSCALL_COUNT ≤ r.eax then .enosys
  else (syscallTable r.eax r.ebx r.ecx r.edx).getD .enosys

/-! ## The library -/

inductive UserCall
  | exit (status : Word)
  | write (fd buf count : Word)
  | read (fd buf count : Word)
  | openFile (path flags : Word)
  | closeFile (fd : Word)
  | getpid
  | sbrk (increment : Word)
  | fork
  | execve (path argv envp : Word)
  | wait (status : Word)

namespace UserCall

/-- The arguments of `syscall`, the number first. -/
def arguments : UserCall → Fin 6 → Word
  | exit status => ![.ofNat 32 SYS_EXIT, status, 0, 0, 0, 0]
  | write fd buf count => ![.ofNat 32 SYS_WRITE, fd, buf, count, 0, 0]
  | read fd buf count => ![.ofNat 32 SYS_READ, fd, buf, count, 0, 0]
  | openFile path flags => ![.ofNat 32 SYS_OPEN, path, flags, 0, 0, 0]
  | closeFile fd => ![.ofNat 32 SYS_CLOSE, fd, 0, 0, 0, 0]
  | getpid => ![.ofNat 32 SYS_GETPID, 0, 0, 0, 0, 0]
  | sbrk increment => ![.ofNat 32 SYS_SBRK, increment, 0, 0, 0, 0]
  | fork => ![.ofNat 32 SYS_FORK, 0, 0, 0, 0, 0]
  | execve path _ _ => ![.ofNat 32 SYS_EXECVE, path, 0, 0, 0, 0]
  | wait status => ![.ofNat 32 SYS_WAIT, status, 0, 0, 0, 0]

/-- What the caller of the wrapper asks for. -/
def service : UserCall → Service
  | exit status => .exit status.toNat
  | write fd buf count => .write fd.toNat buf.toNat count.toNat
  | read fd buf count => .read fd.toNat buf.toNat count.toNat
  | openFile path _ => .openFile path.toNat
  | closeFile fd => .closeFile fd.toNat
  | getpid => .getpid
  | sbrk increment => .sbrk increment.toNat
  | fork => .fork
  | execve path _ _ => .execve path.toNat
  | wait status => .wait status.toNat

end UserCall

namespace Asm

/-- The frame of a system call, seen by `syscall_handler`. -/
theorem syscallHandler_calling (c : Cpu) (number a₁ a₂ a₃ a₄ a₅ esp0 : Word) :
    syscallHandler (savedFrame (calling c number a₁ a₂ a₃ a₄ a₅) 128 esp0 0) =
      if number.toNat = SYS_FORK then .fork
      else if SYSCALL_COUNT ≤ number.toNat then .enosys
      else (syscallTable number.toNat a₁.toNat a₂.toNat a₃.toNat).getD .enosys :=
  rfl

/-- The numbers of the library are the ones that are served. -/
theorem syscallHandler_refuses (r : Registers) :
    syscallHandler r = .enosys ↔ ∀ f : UserCall, (f.arguments 0).toNat ≠ r.eax := by
  have hnumber : ∀ f : UserCall, (f.arguments 0).toNat < SYSCALL_COUNT := by
    intro f
    cases f <;> exact of_decide_eq_true rfl
  by_cases hr : r.eax < SYSCALL_COUNT
  · have hserved : syscallHandler r ≠ .enosys := by
      rw [SYSCALL_COUNT] at hr
      rw [syscallHandler]
      generalize r.eax = n at hr
      interval_cases n <;> exact Service.noConfusion
    have hused : ∃ f : UserCall, (f.arguments 0).toNat = r.eax := by
      rw [SYSCALL_COUNT] at hr
      generalize r.eax = n at hr
      interval_cases n
      · exact ⟨.exit 0, rfl⟩
      · exact ⟨.write 0 0 0, rfl⟩
      · exact ⟨.read 0 0 0, rfl⟩
      · exact ⟨.openFile 0 0, rfl⟩
      · exact ⟨.closeFile 0, rfl⟩
      · exact ⟨.getpid, rfl⟩
      · exact ⟨.sbrk 0, rfl⟩
      · exact ⟨.fork, rfl⟩
      · exact ⟨.execve 0 0 0, rfl⟩
      · exact ⟨.wait 0, rfl⟩
    obtain ⟨f, hf⟩ := hused
    exact ⟨fun h ↦ absurd h hserved, fun h ↦ absurd hf (h f)⟩
  · have hrefused : syscallHandler r = .enosys := by
      have hfork : r.eax ≠ SYS_FORK := by
        intro heq
        exact hr (heq ▸ of_decide_eq_true rfl)
      rw [syscallHandler, if_neg hfork, if_pos (not_lt.mp hr)]
    exact ⟨fun _ f heq ↦ hr (heq ▸ hnumber f), fun _ ↦ hrefused⟩

/-- Every function of the library reaches the handler of its name with its arguments, and a
number that belongs to no function of the library is refused. -/
theorem library_calls_served {c : Cpu} {ret : Word} {ws : List Word} (f : UserCall)
    (h : c.Holds (ret :: (List.ofFn f.arguments ++ ws))) (hlen : 4 * (ws.length + 10) ≤ 2 ^ 32)
    (esp0 : Word) : (∃ d, exec syscallHead c = some d ∧
      syscallHandler (savedFrame d 128 esp0 0) = f.service) ∧
    ∀ r : Registers, syscallHandler r = .enosys ↔
      ∀ g : UserCall, (g.arguments 0).toNat ≠ r.eax := by
  have hwords : List.ofFn f.arguments = [f.arguments 0, f.arguments 1, f.arguments 2,
      f.arguments 3, f.arguments 4, f.arguments 5] := by
    simp [List.ofFn_succ]
  rw [hwords] at h
  refine ⟨⟨_, exec_syscallHead h hlen, ?_⟩, syscallHandler_refuses⟩
  rw [syscallHandler_calling]
  cases f <;> rfl

end Asm

namespace Sample

open Asm

/-- `read` reaches `sys_read` with its three arguments. -/
theorem caller_served : ∃ d, exec syscallHead caller = some d ∧
    syscallHandler (savedFrame d 128 0xC0001000 0) = .read 3 0x402000 16 := by
  have hheld : caller.Holds (0x400123 ::
      (List.ofFn (UserCall.read 3 0x402000 16).arguments ++ [])) := caller_holds
  exact (library_calls_served (.read 3 0x402000 16) hheld (by decide) 0xC0001000).1

end Sample

end EclipseOS
