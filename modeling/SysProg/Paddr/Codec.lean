import Mathlib.Data.UInt
import SysProg.Logic.LittleEndian

/-!
# The packet of `dbfs_paddr.c`

The application hands a `struct packet` to a read of the module, which takes the
pid and the virtual address from its bytes and stores the bytes of the physical
address in their place.  It stores five of the eight bytes of the field.
-/

namespace SysProg.Paddr

open Logic

def MAXLEN : Nat := 64
def EFAULT : Int := 14
def EINVAL : Int := 22
def PAGE_MASK : BitVec 64 := ~~~4095#64

/-- `pid_task(find_get_pid(pid), PIDTYPE_PID)->mm`, and the walk through the page
tables of an `mm` down to the entry of a page, which ends early at an entry that
is empty, bad or not present. -/
structure Kernel where
  taskMm : BitVec 32 → Option Nat
  pte : Nat → BitVec 64 → Option (BitVec 64)

/-- The loop that reads the pid. -/
def readPid (buf : List UInt8) : BitVec 32 :=
  (List.range 4).foldl (fun pid i => pid + BitVec.ofNat 32 (buf.getD i 0).toNat <<< (8 * i)) 0

/-- The loop that reads the virtual address. -/
def readVaddr (buf : List UInt8) : BitVec 64 :=
  (List.range 6).foldl
    (fun vaddr i => vaddr + BitVec.ofNat 64 (buf.getD (8 + i) 0).toNat <<< (8 * i)) 0

/-- The loop that stores the physical address. -/
def storePaddr (buf : List UInt8) (paddr : BitVec 64) : List UInt8 :=
  (List.range 5).foldl
    (fun buf i => buf.set (16 + i) (UInt8.ofNat ((paddr >>> (8 * i)) &&& 255#64).toNat)) buf

/-- The buffer after `copy_from_user`. -/
def loaded (user : List UInt8) : List UInt8 :=
  user.take MAXLEN ++ List.replicate (MAXLEN - user.length) 0

/-- `read_output`, for the numbers that `copy_from_user` and `copy_to_user` return:
the result and the bytes of the caller.  The file position is not advanced. -/
def readOutput (kernel : Kernel) (user : List UInt8) (unread unwritten : Nat) :
    Int × List UInt8 :=
  let len := if user.length < MAXLEN then user.length else MAXLEN
  let buf := loaded user
  if unread ≠ 0 then (-EFAULT, user)
  else
    let vaddr := readVaddr buf
    match kernel.taskMm (readPid buf) with
    | none => (-EINVAL, user)
    | some mm =>
        match kernel.pte mm vaddr with
        | none => (-EINVAL, user)
        | some pte =>
            let paddr := (pte &&& PAGE_MASK) ||| (vaddr &&& ~~~PAGE_MASK)
            let buf := storePaddr buf paddr
            let written := buf.take (len - unwritten) ++ user.drop (len - unwritten)
            if unwritten ≠ 0 then (-EFAULT, written) else (len, written)

/-! ## The application's view -/

/-- `sizeof(struct packet)`. -/
def packetSize : Nat := 24

/-- The number stored in some bytes of a packet. -/
def field (packet : List UInt8) (off size : Nat) : Nat := decodeLE ((packet.drop off).take size)

def pidField (packet : List UInt8) : Nat := field packet 0 4
def vaddrField (packet : List UInt8) : Nat := field packet 8 8
def paddrField (packet : List UInt8) : Nat := field packet 16 8

/-- The physical base of the frame in a page table entry: the bits 12 to 51. -/
def frameBase (pte : BitVec 64) : Nat := (pte &&& 0x000ffffffffff000#64).toNat

/-- The physical address of a virtual one in the page of an entry. -/
def physical (pte : BitVec 64) (vaddr : Nat) : Nat := frameBase pte + vaddr % 4096

/-- The kernel knows the process of the packet and maps its address. -/
structure Mapped (kernel : Kernel) (packet : List UInt8) (pte : BitVec 64) : Prop where
  size : packet.length = packetSize
  pid : pidField packet < 2 ^ 31
  vaddr : vaddrField packet < 2 ^ 47
  mapping : ∃ mm, kernel.taskMm (BitVec.ofNat 32 (pidField packet)) = some mm ∧
    kernel.pte mm (BitVec.ofNat 64 (vaddrField packet)) = some pte

/-- The read decodes the fields of the packet and answers with the physical
address in its place. -/
structure Agrees (kernel : Kernel) (packet : List UInt8) (pte : BitVec 64) : Prop where
  pid : (readPid (loaded packet)).toInt = pidField packet
  vaddr : (readVaddr (loaded packet)).toNat = vaddrField packet
  answered : ∃ packet', readOutput kernel packet 0 0 = ((packetSize : Int), packet') ∧
    pidField packet' = pidField packet ∧ vaddrField packet' = vaddrField packet ∧
      paddrField packet' = physical pte (vaddrField packet)

/-! ## The loops -/

section Loops

variable {buf packet : List UInt8} {paddr pte vaddr : BitVec 64}

theorem shifted_byte (w b n : Nat) :
    BitVec.ofNat w b <<< (8 * n) = BitVec.ofNat w (256 ^ n * b) := by
  have power : 2 ^ (8 * n) = 256 ^ n := Nat.pow_mul 2 8 n
  apply BitVec.eq_of_toNat_eq
  rw [BitVec.toNat_shiftLeft, BitVec.toNat_ofNat, BitVec.toNat_ofNat, Nat.shiftLeft_eq, power,
    Nat.mod_mul_mod, Nat.mul_comm]

/-- The sum of shifted bytes is the number that they store. -/
theorem foldl_bytes (w : Nat) (bytes : List UInt8) (off n : Nat) :
    (List.range n).foldl (fun sum i =>
      sum + BitVec.ofNat w (bytes.getD (off + i) 0).toNat <<< (8 * i)) 0 =
        BitVec.ofNat w (field bytes off n) := by
  induction n with
  | zero => simp [field, decodeLE]
  | succ n ih =>
      have byte : (bytes.drop off).getD n 0 = bytes.getD (off + n) 0 := by
        rw [List.getD_eq_getElem?_getD, List.getD_eq_getElem?_getD, List.getElem?_drop]
      rw [List.range_succ, List.foldl_append, ih, List.foldl_cons, List.foldl_nil, shifted_byte,
        ← BitVec.ofNat_add, field, field, decodeLE_take_succ, byte]

theorem readPid_eq (buf : List UInt8) : readPid buf = BitVec.ofNat 32 (field buf 0 4) := by
  rw [← foldl_bytes]
  simp only [readPid, Nat.zero_add]

theorem readVaddr_eq (buf : List UInt8) : readVaddr buf = BitVec.ofNat 64 (field buf 8 6) :=
  foldl_bytes 64 buf 8 6

/-- The stored bytes are the low ones of the address. -/
theorem storePaddr_eq (fits : 21 ≤ buf.length) :
    storePaddr buf paddr = buf.take 16 ++ encodeLE 5 paddr.toNat ++ buf.drop 21 := by
  have byte (i : Nat) : UInt8.ofNat ((paddr >>> (8 * i)) &&& 255#64).toNat =
      UInt8.ofNat (paddr.toNat / 256 ^ i) := by
    have power : 2 ^ (8 * i) = 256 ^ i := Nat.pow_mul 2 8 i
    have mask : ((paddr >>> (8 * i)) &&& 255#64).toNat = paddr.toNat / 256 ^ i % 2 ^ 8 := by
      rw [BitVec.toNat_and, BitVec.toNat_ushiftRight, Nat.shiftRight_eq_div_pow, power]
      exact Nat.and_two_pow_sub_one_eq_mod _ 8
    rw [mask]
    exact UInt8.toNat.inj (by simp)
  unfold storePaddr encodeLE
  simp only [byte]
  exact foldl_set (fun i => UInt8.ofNat (paddr.toNat / 256 ^ i)) fits

theorem field_append {rest : List UInt8} {off size : Nat} (fits : off + size ≤ packet.length) :
    field (packet ++ rest) off size = field packet off size := by
  unfold field
  rw [List.drop_append_of_le_length (by omega),
    List.take_append_of_le_length (by rw [List.length_drop]; omega)]

/-- The frame and the offset in the page have no bits in common. -/
theorem physical_eq (pte vaddr : BitVec 64) : physical pte vaddr.toNat =
    ((pte &&& 0x000ffffffffff000#64) ||| (vaddr &&& ~~~PAGE_MASK)).toNat := by
  have disjoint : (pte &&& 0x000ffffffffff000#64) &&& (vaddr &&& ~~~PAGE_MASK) = 0#64 := by
    have masks : 0x000ffffffffff000#64 &&& ~~~PAGE_MASK = 0#64 := by decide
    calc (pte &&& 0x000ffffffffff000#64) &&& (vaddr &&& ~~~PAGE_MASK)
        = (pte &&& vaddr) &&& (0x000ffffffffff000#64 &&& ~~~PAGE_MASK) := by ac_rfl
      _ = 0#64 := by rw [masks, BitVec.and_zero]
  have offset : (vaddr &&& ~~~PAGE_MASK).toNat = vaddr.toNat % 4096 := by
    rw [BitVec.toNat_and]
    exact Nat.and_two_pow_sub_one_eq_mod _ 12
  have base : frameBase pte ≤ 0x000ffffffffff000 := by
    rw [frameBase, BitVec.toNat_and]
    exact Nat.and_le_right
  rw [← BitVec.add_eq_or_of_and_eq_zero _ _ disjoint, BitVec.toNat_add, offset, physical]
  unfold frameBase at base ⊢
  omega

/-- The low bytes of the computed address are those of the physical one. -/
theorem paddr_mod (pte vaddr : BitVec 64) :
    ((pte &&& PAGE_MASK) ||| (vaddr &&& ~~~PAGE_MASK)).toNat % 256 ^ 5 =
      physical pte vaddr.toNat % 256 ^ 5 := by
  have mask : PAGE_MASK.setWidth 40 = (0x000ffffffffff000#64).setWidth 40 := by decide
  have low : ((pte &&& PAGE_MASK) ||| (vaddr &&& ~~~PAGE_MASK)).setWidth 40 =
      ((pte &&& 0x000ffffffffff000#64) ||| (vaddr &&& ~~~PAGE_MASK)).setWidth 40 := by
    simp only [BitVec.setWidth_or, BitVec.setWidth_and, mask]
  rw [physical_eq]
  exact congrArg BitVec.toNat low

end Loops

/-! ## The answer -/

section Answers

variable {kernel : Kernel} {packet : List UInt8} {pte : BitVec 64}

/-- A packet with other bytes in the low part of its address field. -/
def answer (packet : List UInt8) (paddr : BitVec 64) : List UInt8 :=
  packet.take 16 ++ encodeLE 5 paddr.toNat ++ packet.drop 21

theorem loaded_eq (size : packet.length = packetSize) :
    loaded packet = packet ++ List.replicate 40 0 := by
  unfold packetSize at size
  unfold loaded MAXLEN
  rw [List.take_of_length_le (by omega), size]

theorem loaded_field (size : packet.length = packetSize) {off n : Nat}
    (inside : off + n ≤ packetSize) : field (loaded packet) off n = field packet off n := by
  rw [loaded_eq size]
  exact field_append (size ▸ inside)

/-- The bytes that are copied out. -/
theorem stored_eq (size : packet.length = packetSize) (paddr : BitVec 64) :
    (storePaddr (loaded packet) paddr).take packetSize ++ packet.drop packetSize =
      answer packet paddr := by
  unfold packetSize at size ⊢
  have kept : (packet ++ List.replicate 40 0).take 16 = packet.take 16 :=
    List.take_append_of_le_length (by omega)
  have rest : (packet ++ List.replicate 40 0).drop 21 = packet.drop 21 ++ List.replicate 40 0 :=
    List.drop_append_of_le_length (by omega)
  rw [loaded_eq size, storePaddr_eq (by rw [List.length_append]; omega), kept, rest,
    List.drop_of_length_le (Nat.le_of_eq size), List.append_nil, ← List.append_assoc]
  refine List.take_left' ?_
  simp only [List.length_append, List.length_take, List.length_drop, encodeLE_length]
  omega

/-- Six bytes are enough for a user address. -/
theorem vaddr_bytes (size : packet.length = packetSize) (vaddr : vaddrField packet < 2 ^ 47) :
    field packet 8 6 = vaddrField packet := by
  have bytes : ((packet.drop 8).take 8).length = 8 := by
    rw [List.length_take, List.length_drop, size]
    rfl
  have first : (packet.drop 8).take 6 = ((packet.drop 8).take 8).take 6 := by
    rw [List.take_take, Nat.min_eq_left (by decide)]
  unfold vaddrField field at vaddr ⊢
  rw [first, decodeLE_take (by omega)]
  exact Nat.mod_eq_of_lt (by omega)

theorem Mapped.readPid_eq (mapped : Mapped kernel packet pte) :
    readPid (loaded packet) = BitVec.ofNat 32 (pidField packet) := by
  rw [Paddr.readPid_eq, loaded_field mapped.size (by decide), pidField]

theorem Mapped.readVaddr_eq (mapped : Mapped kernel packet pte) :
    readVaddr (loaded packet) = BitVec.ofNat 64 (vaddrField packet) := by
  rw [Paddr.readVaddr_eq, loaded_field mapped.size (by decide), vaddr_bytes mapped.size mapped.vaddr]

/-- The read answers with the low bytes of the physical address. -/
theorem Mapped.readOutput_eq (mapped : Mapped kernel packet pte) : ∃ paddr : BitVec 64,
    readOutput kernel packet 0 0 = ((packetSize : Int), answer packet paddr) ∧
      paddr.toNat % 256 ^ 5 = physical pte (vaddrField packet) % 256 ^ 5 := by
  obtain ⟨mm, task, entry⟩ := mapped.mapping
  have size := mapped.size
  have vaddr : (BitVec.ofNat 64 (vaddrField packet)).toNat = vaddrField packet :=
    Nat.mod_eq_of_lt (by have small := mapped.vaddr; omega)
  have low := paddr_mod pte (BitVec.ofNat 64 (vaddrField packet))
  rw [vaddr] at low
  have len : (if packet.length < MAXLEN then packet.length else MAXLEN) = packetSize := by
    rw [size]
    rfl
  refine ⟨_, ?_, low⟩
  simp only [readOutput, mapped.readPid_eq, task, mapped.readVaddr_eq, entry, len, ne_eq,
    not_true_eq_false, if_false, Nat.sub_zero, stored_eq size]

theorem answer_fields (size : packet.length = packetSize) (paddr : BitVec 64) :
    pidField (answer packet paddr) = pidField packet ∧
      vaddrField (answer packet paddr) = vaddrField packet ∧
      paddrField (answer packet paddr) =
        paddr.toNat % 256 ^ 5 + 256 ^ 5 * (paddrField packet / 256 ^ 5) := by
  unfold packetSize at size
  have front : (packet.take 16).length = 16 := by
    rw [List.length_take]
    omega
  have kept {off n : Nat} (inside : off + n ≤ 16) :
      field (answer packet paddr) off n = field packet off n := by
    rw [answer, List.append_assoc, field_append (front.symm ▸ inside)]
    conv_rhs => rw [← List.take_append_drop 16 packet, field_append (front.symm ▸ inside)]
  refine ⟨kept (by decide), kept (by decide), ?_⟩
  have behind : packet.drop 21 = (packet.drop 16).drop 5 := by rw [List.drop_drop]
  have whole : (packet.drop 16).take 8 = packet.drop 16 :=
    List.take_of_length_le (by rw [List.length_drop]; omega)
  have fields : (answer packet paddr).drop 16 = encodeLE 5 paddr.toNat ++ packet.drop 21 := by
    rw [answer, List.append_assoc, List.drop_left' front]
  unfold paddrField field
  rw [fields, whole, List.take_of_length_le (by simp; omega), decodeLE_append, encodeLE_length,
    decodeLE_encodeLE, behind, decodeLE_drop (by rw [List.length_drop]; omega)]

/-- The read answers with the physical address exactly when the bytes that it does
not store are those of the address already. -/
theorem answer_agrees_iff (mapped : Mapped kernel packet pte) : Agrees kernel packet pte ↔
    paddrField packet / 2 ^ 40 = physical pte (vaddrField packet) / 2 ^ 40 := by
  obtain ⟨paddr, ran, low⟩ := mapped.readOutput_eq
  obtain ⟨pid, vaddr, stored⟩ := answer_fields mapped.size paddr
  rw [low] at stored
  constructor
  · rintro ⟨-, -, packet', ran', -, -, answered⟩
    obtain rfl : answer packet paddr = packet' := congrArg Prod.snd (ran.symm.trans ran')
    omega
  · intro same
    refine ⟨?_, ?_, _, ran, pid, vaddr, by omega⟩
    · have small := mapped.pid
      have pid : (BitVec.ofNat 32 (pidField packet)).toNat = pidField packet :=
        Nat.mod_eq_of_lt (by omega)
      rw [mapped.readPid_eq, BitVec.toInt_eq_toNat_of_lt (by omega), pid]
    · have small := mapped.vaddr
      rw [mapped.readVaddr_eq, BitVec.toNat_ofNat]
      omega

/-- The packet of a process 42 that asks for an address in its page
`0x7f0000000000`. -/
def smallPacket : List UInt8 :=
  encodeLE 8 42 ++ encodeLE 8 0x7f0000000123 ++ encodeLE 8 0

/-- A kernel in which the page of the packet has the entry `pte`. -/
def onePage (pte : BitVec 64) : Kernel where
  taskMm pid := if pid = 42#32 then some 8 else none
  pte mm vaddr := if mm = 8 ∧ vaddr >>> 12 = 0x7f0000000#64 then some pte else none

theorem mapped_smallPacket (pte : BitVec 64) : Mapped (onePage pte) smallPacket pte where
  size := by decide
  pid := by decide
  vaddr := by decide
  mapping := ⟨8, rfl, rfl⟩

/-- A writable page at the physical address `0xff000` that may not be executed. -/
theorem answer_agrees_iff_smallPacket :
    Agrees (onePage 0x80000000000ff067#64) smallPacket 0x80000000000ff067#64 ↔
      paddrField smallPacket / 2 ^ 40 =
        physical 0x80000000000ff067#64 (vaddrField smallPacket) / 2 ^ 40 :=
  answer_agrees_iff (mapped_smallPacket _)

/-- For a page at the physical address 2⁴⁰ the answer lacks the highest bit. -/
theorem high_frame_lost : ¬ ∀ kernel packet pte, Mapped kernel packet pte →
    Agrees kernel packet pte := by
  intro claimed
  have mapped := mapped_smallPacket 0x10000000067#64
  obtain ⟨paddr, ran, low⟩ := mapped.readOutput_eq
  obtain ⟨-, -, stored⟩ := answer_fields mapped.size paddr
  obtain ⟨-, -, packet', ran', -, -, answered⟩ := claimed _ _ _ mapped
  obtain rfl : answer smallPacket paddr = packet' := congrArg Prod.snd (ran.symm.trans ran')
  rw [stored, low] at answered
  revert answered
  decide

end Answers

end SysProg.Paddr
