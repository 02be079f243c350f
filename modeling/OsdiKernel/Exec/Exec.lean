import OsdiKernel.Cpio.Cpio
import OsdiKernel.Sched.Calls
import OsdiKernel.Sched.Stores

/-!
# `sys_exec`, and where it writes

The whole of `sys_exec`, from the name of a file on, with every byte it stores on
record. The program is moved to a fixed address in the middle of the page
frames; `argv[]` is copied to a scratch page first and from there to the top of
the user stack, for it may lie where the copy goes.

Where a task's page lies in the way, what is stored there is carried over to the
task. A call that fails half-way has written what it had written by then.
-/

namespace OsdiKernel

/-- `INITRAMFS_ADDR` -/
def initramfsAddr : Nat := 0x8000000

/-- Every byte of the kernel's memory can be read. -/
def readable (mem : Nat → UInt8) : Memory := fun a => some (mem a)

namespace Ram

/-- The copy loop of `cpio_move_file`, for so many turns. -/
def copyChars (r : Ram) (target result : Nat) : Nat → Ram
  | 0 => r
  | n + 1 => copyChars (r.store target (r.mem result)) (target + 1) (result + 1) n

/-- `*(char **)addr = w` -/
def storeWord (r : Ram) (addr w : Nat) : Ram :=
  r.storeBytes addr ((List.range 8).map fun i => UInt8.ofNat (w / 256 ^ i))

/-- The two copy loops of `sys_exec`: `*(dest + i) = *(source + i)`, for so many turns. -/
def copyPointers (r : Ram) (dest source : Nat) : Nat → Ram
  | 0 => r
  | n + 1 => copyPointers (r.storeWord (dest % 2 ^ 64) (load64 r.mem source)) (dest + 8) (source + 8) n

end Ram

/--
`cpio_move_file`: where the file is, and how many bytes it copied there. With no
file of that name it copies from NULL, as many bytes as `fileSize` then says.
-/
def cpioMoveFile (r : Ram) (archive name moveAddr : Nat) : Except Fault (Nat × Nat × Ram) := do
  let (result, fileSize) ← cpioGetFile (readable r.mem) archive name 5920
  -- the counter is an `int`, and negative after that many turns
  let turns := min fileSize (2 ^ 31)
  .ok (moveAddr, turns, r.copyChars moveAddr (result.getD 0) turns)

/-- What a call of `sys_exec` came to. -/
structure ExecTrace where
  outcome : Except Fault (Int × Kernel)
  /-- The bytes it stored to through pointers. -/
  written : List Nat
  /-- How many bytes of a program it moved. -/
  size : Nat
  /-- Its scratch page, once it has one. -/
  backup : Option Nat

/-- The beginning of `sys_exec`: the name is printed and the file moved. -/
def execLoad (mem : Nat → UInt8) (name : Nat) : Except Fault (Nat × Nat × Ram) := do
  let _ ← printString (readable mem) (some name)
  cpioMoveFile ⟨mem, []⟩ initramfsAddr name moveAddress

/-- `phy_addr` of the `struct page` at NULL: `kmalloc` does not look whether it was given a block. -/
def nullPhyAddr : Nat := 32

/--
The end of `sys_exec`, with a scratch page: the two copies of `argv[]` and the
trap frame, and the bytes that the copies stored to.
-/
def execArgs (k : Kernel) (targetAddr argv argc backup : Nat) : Kernel × List Nat :=
  let ram := (⟨k.mem, []⟩ : Ram).copyPointers backup argv argc
  let k := k.stored ram
  let sp := execSp k.cur argc
  let k := k.updateTask k.current (fun t => { t with ptRegs := { t.ptRegs with sp := sp } })
  let ram' := (⟨k.mem, []⟩ : Ram).copyPointers sp backup argc
  let k := k.stored ram'
  -- `x1` is read back from the frame, which the copy may have run over
  let k := k.updateTask k.current (fun t =>
    { t with ptRegs := { t.ptRegs with pc := targetAddr, regs := Function.update t.ptRegs.regs 1 t.ptRegs.sp } })
  (k, ram'.written ++ ram.written)

/--
`sys_exec` of the file named at `name`. There is no `int` for an `argc_count` of
`2 ^ 31`. With no page left it faults, but the stores it makes where address 0 is
memory are on record; and what it does once its own kernel stack is overwritten
cannot be told.
-/
def sysExecTrace (k : Kernel) (name argv : Nat) : ExecTrace :=
  let k := preemptDisable k
  match execLoad k.mem name with
  | .error f => ⟨.error f, [], 0, none⟩
  | .ok (targetAddr, size, ram) =>
      let k := k.stored ram
      match argcCount k.mem argv (2 ^ 31) with
      | none => ⟨.error .outOfBounds, ram.written, size, none⟩
      | some argc =>
          match kmalloc k.mm pageSize with
          | .error f =>
              let (_, written) := execArgs k targetAddr argv argc (load64 k.mem nullPhyAddr)
              ⟨.error f, written ++ ram.written, size, none⟩
          | .ok (page, mm) =>
              let backup := page.getD 0
              let (k, written) := execArgs { k with mm } targetAddr argv argc backup
              let written := written ++ ram.written
              let outcome :=
                if ∃ a ∈ written, k.current.KernelStack a then .error .outOfBounds
                else .ok ((argc : Int), preemptEnable k)
              ⟨outcome, written, size, some backup⟩

end OsdiKernel
