import SysProg.Logic.Buffers
import SysProg.Logic.Chains
import SysProg.Ptree.Output

/-!
# Writing the process chain in `dbfs_ptree.c`

A pid written to the file `input` fills the buffer of the module with a line for
each process from the requested one up to the first one of pid 0.  Each line is
put before the ones already there, so the buffer begins at the top of the chain.
-/

namespace SysProg.Ptree

open Logic

/-- The fields of a `task_struct` that are printed. -/
structure Task where
  comm : List UInt8
  pid : Int

/-- The tasks with their parents, and `pid_task(find_get_pid(pid), PIDTYPE_PID)`. -/
structure Kernel where
  tasks : Nodes Task
  pidTask : BitVec 32 → Nat

/-- The text of the format `"%s (%d)\n"`. -/
def Task.line (t : Task) : List UInt8 :=
  beforeNul t.comm ++ ascii " (" ++ ascii (toString t.pid) ++ ascii ")\n"

def isSpace (c : UInt8) : Bool := c = 32 || (9 ≤ c && c ≤ 13) || c = 160

def isDigit (c : UInt8) : Bool := 48 ≤ c && c ≤ 57

/-- `sscanf(buf, "%u", &input_pid)`: without a number the variable keeps its value;
a number that does not end in the buffer is read beyond it. -/
def sscanf (buf : Vector UInt8 MAXLEN) (inputPid : BitVec 32) : Option (BitVec 32) :=
  let text := buf.toList.dropWhile isSpace
  let digits := text.takeWhile isDigit
  if text.dropWhile isDigit = [] then none
  else if digits = [] then some inputPid
  else some (BitVec.ofNat 32 (digits.foldl (fun n c => 10 * n + (c.toNat - 48)) 0))

/-- `while((len_add = snprintf(..)) == 0);`, cut off after `fuel` rounds. -/
def printLine (t : Task) : Nat → Vector UInt8 MAXLEN → Option (Nat × Vector UInt8 MAXLEN)
  | 0, _ => none
  | fuel + 1, bufAdd =>
      let printed := snprintf bufAdd t.line
      if printed.1 = 0 then printLine t fuel printed.2 else some printed

/-- The loop over the tasks, cut off after `fuel` rounds: the length and the
buffer at its end. -/
def climb (tasks : Nodes Task) :
    Nat → Vector UInt8 MAXLEN → Nat → Nat → Option (Nat × Vector UInt8 MAXLEN)
  | 0, _, _, _ => none
  | fuel + 1, buf, curr, len => do
      let task ← tasks curr
      if task.value.pid = 0 then some (len, buf)
      else do
        let (lenAdd, bufAdd) ← printLine task.value (fuel + 1) (filled MAXLEN [])
        -- a negative count would be a huge `size_t`
        if MAXLEN < lenAdd then none
        else do
          let bufAdd ← memcpy bufAdd lenAdd buf (MAXLEN - lenAdd)
          let buf ← memcpy buf 0 bufAdd MAXLEN
          climb tasks fuel buf task.next (len + lenAdd)

/-- The buffer after `copy_from_user`, which clears what it could not copy. -/
def received (buf : Vector UInt8 MAXLEN) (user : List UInt8) (uncopied : Nat) :
    Option (Vector UInt8 MAXLEN) :=
  memcpy buf 0 (filled user.length (user.take (user.length - uncopied))) user.length

/-- `write_pid_to_input`, for the bytes of the caller, the number `uncopied` that
`copy_from_user` returns and the first value of `input_pid`. -/
def writePidToInput (kernel : Kernel) (fuel : Nat) (buf : Vector UInt8 MAXLEN) (user : List UInt8)
    (uncopied : Nat) (inputPid : BitVec 32) : Option (Int × Vector UInt8 MAXLEN) := do
  let buf ← received buf user uncopied
  if uncopied ≠ 0 then some (-EFAULT, buf)
  else do
    let inputPid ← sscanf buf inputPid
    let (len, buf) ← climb kernel.tasks fuel (filled MAXLEN []) (kernel.pidTask inputPid) 0
    some (len, buf)

/-- The entries are the tasks from the one of the pid up to the first one of
pid 0, with lines that fit. -/
structure Ancestry (kernel : Kernel) (pid : BitVec 32) (entries : List (Nat × Task)) : Prop where
  chain : ∃ root idle, Chain kernel.tasks (kernel.pidTask pid) entries root ∧
    kernel.tasks root = some idle ∧ idle.value.pid = 0
  running : ∀ e ∈ entries, e.2.pid ≠ 0
  short : ∀ e ∈ entries, e.2.line.length < MAXLEN

/-- The lines of the tasks, the last task first. -/
def listing (entries : List (Nat × Task)) : List UInt8 :=
  (entries.map fun e => e.2.line).reverse.flatten

section Climbing

variable {t : Task} {tasks : Nodes Task} {entries : List (Nat × Task)} {p root : Nat}
  {idle : Node Task}

/-- A request goes over what the buffer held before. -/
theorem received_filled {old user : List UInt8} (fits : user.length ≤ MAXLEN) :
    received (filled MAXLEN old) user 0 =
      some (filled MAXLEN (user ++ old.drop user.length)) := by
  rw [received, Nat.sub_zero, List.take_length]
  exact memcpy_over fits

/-- A line that fits is printed in the first round. -/
theorem printLine_eq (short : t.line.length < MAXLEN) (fuel : Nat) :
    printLine t (fuel + 1) (filled MAXLEN []) = some (t.line.length, filled MAXLEN t.line) := by
  have nonempty : t.line.length ≠ 0 := by simp [Task.line, ascii]
  rw [printLine, snprintf_filled short, if_neg nonempty]

@[simp] theorem listing_cons (e : Nat × Task) (rest : List (Nat × Task)) :
    listing (e :: rest) = listing rest ++ e.2.line := by
  simp [listing]

/-- The rounds along a chain put its lines before the text in the buffer. -/
theorem climb_chain (chain : Chain tasks p entries root) (top : tasks root = some idle)
    (ended : idle.value.pid = 0) (running : ∀ e ∈ entries, e.2.pid ≠ 0)
    (short : ∀ e ∈ entries, e.2.line.length < MAXLEN) {fuel : Nat} (enough : entries.length < fuel)
    (text : List UInt8) (len : Nat) : climb tasks fuel (filled MAXLEN text) p len =
      some (len + (listing entries).length, filled MAXLEN (listing entries ++ text)) := by
  induction entries generalizing p fuel text len with
  | nil =>
      cases fuel with
      | zero => exact absurd enough (Nat.not_lt_zero _)
      | succ fuel =>
          obtain rfl : p = root := chain
          simp [climb, top, ended, listing]
  | cons e rest ih =>
      cases fuel with
      | zero => exact absurd enough (Nat.not_lt_zero _)
      | succ fuel =>
          obtain ⟨rfl, -, next, node, later⟩ := chain
          have fits := short e List.mem_cons_self
          have above := ih later (fun x member => running x (List.mem_cons_of_mem _ member))
            (fun x member => short x (List.mem_cons_of_mem _ member))
            (Nat.lt_of_succ_lt_succ enough) (e.2.line ++ text) (len + e.2.line.length)
          rw [climb, node]
          simp only [Option.bind_eq_bind, Option.bind_some, printLine_eq fits,
            if_neg (running e List.mem_cons_self), if_neg (Nat.not_lt.mpr (Nat.le_of_lt fits)),
            memcpy_filled (Nat.le_of_lt fits), memcpy_whole, above, listing_cons]
          rw [List.append_assoc, List.length_append]
          congr 2
          omega

end Climbing

/-- The buffer holds the lines from the top of the chain down, cut off at its end
or padded with zeros, and the length is that of all lines. -/
theorem writePidToInput_listing {kernel : Kernel} {pid inputPid : BitVec 32}
    {entries : List (Nat × Task)} (ancestry : Ancestry kernel pid entries)
    {buf buf' : Vector UInt8 MAXLEN} {user : List UInt8} (copied : received buf user 0 = some buf')
    (requested : sscanf buf' inputPid = some pid) {fuel : Nat} (enough : entries.length < fuel) :
    ∃ after, writePidToInput kernel fuel buf user 0 inputPid =
        some (((listing entries).length : Int), after) ∧
      after.toList = (listing entries).take MAXLEN ++
        List.replicate (MAXLEN - (listing entries).length) 0 := by
  obtain ⟨root, idle, chain, top, ended⟩ := ancestry.chain
  refine ⟨filled MAXLEN (listing entries), ?_, filled_toList _ _⟩
  have climbed := climb_chain chain top ended ancestry.running ancestry.short enough [] 0
  rw [List.append_nil, Nat.zero_add] at climbed
  simp only [writePidToInput, copied, requested, climbed, Option.bind_eq_bind, Option.bind_some]
  rfl

/-- A shell below the first process. -/
def smallKernel : Kernel where
  tasks a :=
    if a = 8 then some ⟨⟨ascii "swapper", 0⟩, 8⟩
    else if a = 16 then some ⟨⟨ascii "init", 1⟩, 8⟩
    else if a = 24 then some ⟨⟨ascii "bash", 42⟩, 16⟩
    else none
  pidTask pid := if pid = 42#32 then 24 else 0

/-- A request over the remains of an earlier one. -/
theorem writePidToInput_listing_smallKernel : ∃ after,
    writePidToInput smallKernel 3 (filled MAXLEN (ascii "stale")) (ascii "42\n") 0 0#32 =
        some (19, after) ∧
      after.toList = (ascii "init (1)\nbash (42)\n").take MAXLEN ++
        List.replicate (MAXLEN - 19) 0 := by
  have ancestry : Ancestry smallKernel 42#32
      [(24, ⟨ascii "bash", 42⟩), (16, ⟨ascii "init", 1⟩)] := by
    refine ⟨⟨8, ⟨⟨ascii "swapper", 0⟩, 8⟩, ?_, rfl, rfl⟩, by decide, by decide⟩
    exact ⟨rfl, by decide, 16, rfl, rfl, by decide, 8, rfl, rfl⟩
  have copied : received (filled MAXLEN (ascii "stale")) (ascii "42\n") 0 =
      some (filled MAXLEN (ascii "42\nle")) := received_filled (by decide)
  have requested : sscanf (filled MAXLEN (ascii "42\nle")) 0#32 = some 42#32 := by
    unfold sscanf
    rw [filled_toList]
    decide +kernel
  have lines : listing [(24, ⟨ascii "bash", 42⟩), (16, ⟨ascii "init", 1⟩)] =
      ascii "init (1)\nbash (42)\n" := by decide
  have length : (ascii "init (1)\nbash (42)\n").length = 19 := by decide
  have found := writePidToInput_listing ancestry copied requested (by decide : 2 < 3)
  rw [lines, length] at found
  exact found

end SysProg.Ptree
