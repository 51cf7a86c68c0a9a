import EclipseOS.Kernel

/-!
# Scheduler ring and context switch

The functions of `task.c` and `task_switch.S`.  The tasks form a circular list
through `next`; `running_task` points into it.
-/

namespace EclipseOS

namespace Kernel

def taskingInitialize (k : Kernel) : Kernel :=
  { k with
    mainTask := ⟨{ k.mainTask.regs with cr3 := k.machine.pagingCurrentDirectory }, some .main⟩
    runningTask := .main }

/-- `task_add`: splice in after the running task. -/
def taskAdd (k : Kernel) (task : TaskRef) : Kernel :=
  let k := k.setNext task (k.task k.runningTask).next
  k.setNext k.runningTask (some task)

/-- The search of `task_remove` for the predecessor of `task`.  Outer `none`:
a null link is followed, or the walk runs into a cycle that contains neither
end mark, which `fuel` steps over all task objects decide.  Inner `none`: back
at the running task, so `task` is not in the ring. -/
def findPrev (k : Kernel) (task : TaskRef) : ℕ → TaskRef → Option (Option TaskRef)
  | 0, _ => none
  | fuel + 1, prev =>
      match (k.task prev).next with
      | none => none
      | some next =>
          if next = task then some (some prev)
          else if next = k.runningTask then some none
          else findPrev k task fuel next

def taskRemove (k : Kernel) (task : TaskRef) : Option Kernel := do
  match ← k.findPrev task (k.taskCount + 1) k.runningTask with
  | none => return k
  | some prev => return k.setNext prev (k.task task).next

/-- The stores of `switch_task` into `old->regs`.  `cpu` holds the registers at
the call, `eip` the return address and `esp` the stack pointer after the
return; the interrupt flag is forced on. -/
def saveContext (cpu : TaskRegs) (cr3 : ℕ) (regs : TaskRegs) : TaskRegs :=
  { regs with
    ebx := cpu.ebx
    esi := cpu.esi
    edi := cpu.edi
    ebp := cpu.ebp
    eip := cpu.eip
    esp := cpu.esp
    eflags := cpu.eflags ||| 0x200
    cr3 := cr3 }

/-- The address space of the new task; 0 keeps the loaded one. -/
def loadSpace (m : Machine) (cr3 : ℕ) : Machine := if cr3 = 0 then m else { m with cr3 := cr3 }

/-- `switch_task`; what the processor resumes with is the second component. -/
def switchTask (k : Kernel) (cpu : TaskRegs) (old new : TaskRef) : Kernel × TaskRegs :=
  let k := k.modifyRegs old (saveContext cpu k.machine.cr3)
  let regs := (k.task new).regs
  (k.withMachine (loadSpace k.machine regs.cr3), regs)

/-- `yield`, run to the point where the next task's context is loaded. -/
def yield (k : Kernel) (cpu : TaskRegs) : Option Kernel := do
  let prev := k.runningTask
  let next ← (k.task prev).next
  let k := { k with runningTask := next }
  if prev = next then return k
  let k := (k.processOfTask next).elim k fun np ↦ k.tssSetStack (k.procTable np).kernelStack
  return (k.switchTask cpu prev next).1

/-- `task_create` of a task object that was not used before.  The stack comes
from the heap without a test for the null pointer. -/
def taskCreate (k : Kernel) (main flags : ℕ) : Option Kernel := do
  let task := TaskRef.created k.createdCount
  let k := { k with createdCount := k.createdCount + 1 }
  let (stack, heap) := k.heap.kmallocAligned KSTACK_SIZE
  let k := { k with heap := heap }
  let m ← k.machine.memset stack 0 KSTACK_SIZE
  let k := (k.withMachine m).modifyRegs task fun regs ↦ { regs with
    eip := main
    esp := (stack + KSTACK_SIZE) % 2 ^ 32
    eflags := flags
    cr3 := m.pagingCurrentDirectory
    ebx := 0
    esi := 0
    edi := 0
    ebp := 0 }
  return k.taskAdd task

end Kernel

end EclipseOS
