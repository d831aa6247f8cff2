import Mathlib.Data.Finset.Insert
import Dtrun.Library.FiniteMap
import Dtrun.Supervisor.Prng

/-! # What the supervisor sees and what it keeps

Wait statuses, registers and the kernel's answers on one side; the bookkeeping of
`struct Supervisor` on the other. Addresses and register contents are 64-bit words, pids are
integers, and every host map is keyed by pid.
-/
namespace Dtrun
set_option autoImplicit false
open FiniteMap

abbrev Pid := Int
abbrev Errno := Nat

def ESRCH : Errno := 3

inductive Signal where
  | SIGHUP | SIGINT | SIGQUIT | SIGILL | SIGTRAP | SIGABRT | SIGBUS | SIGFPE | SIGKILL | SIGUSR1
  | SIGSEGV | SIGUSR2 | SIGPIPE | SIGALRM | SIGTERM | SIGSTKFLT | SIGCHLD | SIGCONT | SIGSTOP
  | SIGTSTP | SIGTTIN | SIGTTOU | SIGURG | SIGXCPU | SIGXFSZ | SIGVTALRM | SIGPROF | SIGWINCH
  | SIGIO | SIGPWR | SIGSYS
  deriving DecidableEq

/-- The signal's number, as `sig as i32` yields it; the constructors stand in that order. -/
def Signal.number (sig : Signal) : Int := sig.ctorIdx + 1

/-- The ptrace events of `uapi/linux/ptrace.h`. -/
inductive Event where
  | fork | vfork | clone | exec | vforkDone | exit | seccomp | stop
  deriving DecidableEq

inductive WaitStatus where
  | exited (p : Pid) (code : Int)
  | signaled (p : Pid) (sig : Signal) (core : Bool)
  | stopped (p : Pid) (sig : Signal)
  | ptraceEvent (p : Pid) (sig : Signal) (event : Event)
  | ptraceSyscall (p : Pid)
  | continued (p : Pid)
  | stillAlive
  deriving DecidableEq

def Event.creates : Event → Bool
  | .clone | .fork | .vfork => true
  | _ => false

def WaitStatus.death : WaitStatus → Option Pid
  | .exited p _ | .signaled p _ _ => some p
  | _ => none

/-- The code that `supervise` makes of the init's last status. -/
def WaitStatus.exitCode : WaitStatus → Int
  | .exited _ code => code
  | .signaled _ sig _ => 128 + sig.number
  | _ => 0

/-- The `op` field of `PTRACE_GET_SYSCALL_INFO`. -/
inductive SyscallOp where
  | none | entry | exit | seccomp
  deriving DecidableEq

/-- The registers of `user_regs_struct` that carry a syscall. -/
structure Regs where
  origRax : U64 := 0
  rax : U64 := 0
  rdi : U64 := 0
  rsi : U64 := 0
  rdx : U64 := 0
  r10 : U64 := 0
  r8 : U64 := 0
  r9 : U64 := 0
  deriving DecidableEq

/-- What the kernel answers to the requests made between two waits. The tracees asked about are
stopped for all of that time, so one answer to each question stands. -/
structure Answers where
  syscallInfo : Pid → Except Errno SyscallOp := fun _ => .ok .none
  getevent : Pid → Except Errno Pid := fun _ => .error ESRCH
  getregs : Pid → Except Errno Regs := fun _ => .ok {}
  setregs : Pid → Except Errno Unit := fun _ => .ok ()
  syscall : Pid → Except Errno Unit := fun _ => .ok ()
  readMem : Pid → U64 → Nat → Except Errno (List Byte) := fun _ _ _ => .error 5
  /-- The number of bytes `write_at` reports as written. -/
  writeMem : Pid → U64 → List Byte → Except Errno Nat := fun _ _ data => .ok data.length

/-- A request to the kernel that was accepted. -/
inductive Effect where
  | resume (p : Pid) (sig : Option Signal)
  | setregs (p : Pid) (regs : Regs)
  | write (p : Pid) (addr : U64) (data : List Byte)
  deriving DecidableEq

inductive SuperviseError where
  | ptrace (e : Errno)
  | wait (e : Errno)
  | io (e : Errno)
  | deadlock
  deriving DecidableEq

inductive Value where
  | null
  | bool (b : Bool)
  | num (n : Int)
  | str (s : String)
  deriving DecidableEq

/-- One record handed to `trace_json`. -/
structure Record where
  seq : Nat
  event : String
  detail : List (String × Value)
  deriving DecidableEq

structure PendingInject where
  syscall : Int
  retval : U64
  deriving DecidableEq

structure CloneInfo where
  flags : U64 := 0
  childTid : U64 := 0
  deriving DecidableEq

structure Thread where
  vtid : Nat
  childTid : U64
  flags : U64
  scheduled : Bool
  deriving DecidableEq

abbrev PidMap (ν : Type) := Map Pid ν

/-- The bookkeeping of `struct Supervisor`. The two last fields are its outputs: the records
written to the trace file that `state_root` and `id` name, and the requests the kernel accepted. -/
structure Supervisor where
  pid : Pid
  rng : Prng
  tick : U64
  pending : PidMap PendingInject
  seq : Nat
  threads : PidMap Thread
  vtidNext : Nat
  runnable : List Pid
  pendingStart : Finset Pid
  stoppedPending : Finset Pid
  blocked : Finset Pid
  waiting : Map U64 (List Pid)
  current : Option Pid
  lastVtid : Option Nat
  sigPending : PidMap Signal
  clonePending : PidMap CloneInfo
  groupExiting : Bool
  trace : List Record
  effects : List Effect

def CLONE_VM : U64 := 0x00000100
def CLONE_SIGHAND : U64 := 0x00000800
def CLONE_THREAD : U64 := 0x00010000
def CLONE_CHILD_CLEARTID : U64 := 0x00200000

/-- A thread needs the other two, or the kernel refuses the call. -/
def threadFlags : U64 := CLONE_VM ||| CLONE_SIGHAND ||| CLONE_THREAD

def SYS_getrandom : Int := 318
def SYS_clock_gettime : Int := 228
def SYS_CLOCK_GETTIME64 : Int := 403
def SYS_gettimeofday : Int := 96
def SYS_futex : Int := 202
def SYS_exit_group : Int := 231
def SYS_clone : Int := 56
def SYS_clone3 : Int := 435

def FUTEX_CMD_MASK : U32 := 0x7f
def FUTEX_WAIT : U32 := 0
def FUTEX_WAKE : U32 := 1
def FUTEX_REQUEUE : U32 := 3
def FUTEX_CMP_REQUEUE : U32 := 4
def FUTEX_WAIT_BITSET : U32 := 9
def FUTEX_WAKE_BITSET : U32 := 10

def VIRTUAL_EPOCH : U64 := 1704067200
def MONO_STEP_NS : U64 := 1000000

def CLOCK_REALTIME : U32 := 0
def CLOCK_MONOTONIC : U32 := 1
def CLOCK_REALTIME_COARSE : U32 := 5
def CLOCK_MONOTONIC_COARSE : U32 := 6
def CLOCK_BOOTTIME : U32 := 7

def futexCmdName (cmd : U32) : String :=
  if cmd = FUTEX_WAIT then "wait"
  else if cmd = FUTEX_WAKE then "wake"
  else if cmd = FUTEX_REQUEUE then "requeue"
  else if cmd = FUTEX_CMP_REQUEUE then "cmp_requeue"
  else if cmd = FUTEX_WAIT_BITSET then "wait_bitset"
  else if cmd = FUTEX_WAKE_BITSET then "wake_bitset"
  else "other"

def syscallNames : List (Int × String) :=
  [(318, "getrandom"), (228, "clock_gettime"), (403, "clock_gettime64"), (96, "gettimeofday"),
   (0, "read"), (1, "write"), (257, "openat"), (3, "close"), (9, "mmap"), (11, "munmap"),
   (202, "futex"), (56, "clone"), (435, "clone3"), (59, "execve"), (322, "execveat"),
   (60, "exit"), (231, "exit_group"), (35, "nanosleep"), (12, "brk"), (158, "arch_prctl"),
   (218, "set_tid_address"), (157, "prctl"), (262, "newfstatat"), (8, "lseek"), (16, "ioctl"),
   (7, "poll"), (271, "ppoll"), (13, "rt_sigaction"), (14, "rt_sigprocmask"), (41, "socket"),
   (42, "connect"), (43, "accept"), (49, "bind"), (51, "getsockname"), (33, "dup2"),
   (72, "fcntl"), (39, "getpid"), (110, "getppid"), (102, "getuid"), (105, "setuid"),
   (104, "getgid"), (106, "setgid"), (267, "readlinkat"), (258, "mkdirat"), (263, "unlinkat"),
   (165, "mount"), (80, "chdir"), (273, "set_robust_list"), (334, "rseq"), (293, "pipe2"),
   (291, "epoll_create1"), (233, "epoll_ctl"), (232, "epoll_wait"), (217, "getdents64"),
   (24, "sched_yield"), (28, "madvise"), (10, "mprotect"), (324, "membarrier")]

def syscallName (nr : Int) : String := (syscallNames.lookup nr).getD ""

def hexDigit (n : Nat) : Char := "0123456789abcdef".toList.getD n '0'

def hexBytes (bytes : List Byte) : String :=
  String.ofList (bytes.flatMap fun b => [hexDigit (b.toNat >>> 4), hexDigit (b.toNat &&& 0xf)])

end Dtrun
