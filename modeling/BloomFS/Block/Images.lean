/-
The devices.

`MemDevice` is a flat buffer, `FileDevice` an image file and `RawDevice` a block device
node.  They answer every list of requests as a `Disk` does, so what holds of all disks
holds of them.  A host file may refuse any write or sync, and a refused write has put
down a first part of its data.  The disk that stands for the file then needs a fault
oracle that knows what each refused write will leave, so it is built along the requests,
from the last one back.
-/
import BloomFS.Block.Device

namespace BloomFS
namespace Devices

open Bytes Exec Block

/-! ## An in-memory device -/

structure MemDevice where
  data : Bytes
  blocks : Nat

namespace MemDevice

/-- A zero-filled device.  A vector holds less than `2 ^ 63` bytes. -/
def new (blocks : Nat) : Except (Fault Error) MemDevice :=
  if 2 ^ 63 ≤ blocks * size then .error .panic else .ok ⟨List.replicate (blocks * size) 0, blocks⟩

def readBlock (num : Nat) : Exec Error MemDevice Bytes := fun m =>
  if m.blocks ≤ num then .error (.err .outOfRange) m
  else if m.data.length < num * size + size then .error .panic m
  else .ok (slice m.data (num * size) size) m

def writeBlock (num : Nat) (data : Bytes) : Exec Error MemDevice Unit := fun m =>
  if m.blocks ≤ num then .error (.err .outOfRange) m
  else if data.length ≠ size then .error (.err .shortData) m
  else if m.data.length < num * size + size then .error .panic m
  else .ok () { m with data := patch m.data (num * size) data }

def sync : Exec Error MemDevice Unit := pure ()

end MemDevice

/-! ## Devices on a file of the host -/

/-- An open file or block device node of the host.  Call `n` fails if it is a write and
`tears n` is some number, the number of bytes it has put down, or if it is a sync and
`loses n`. -/
structure File where
  bytes : Bytes
  tears : Nat → Option Nat
  loses : Nat → Bool
  calls : Nat

namespace File

/-- The end of the file is an error. -/
def readExactAt (off len : Nat) : Exec Error File Bytes := fun f =>
  if f.bytes.length < off + len then .error (.err .io) f else .ok (slice f.bytes off len) f

/-- Put bytes down at an offset.  A gap behind the old end reads as zeros. -/
def put (f : File) (off : Nat) (data : Bytes) : File :=
  { f with bytes := patch (f.bytes ++ List.replicate (off - f.bytes.length) 0) off data,
           calls := f.calls + 1 }

def writeAllAt (off : Nat) (data : Bytes) : Exec Error File Unit := fun f =>
  match f.tears f.calls with
  | none => .ok () (f.put off data)
  | some k => .error (.err .io) (f.put off (data.take k))

def syncAll : Exec Error File Unit := fun f =>
  if f.loses f.calls then .error (.err .io) { f with calls := f.calls + 1 }
  else .ok () { f with calls := f.calls + 1 }

end File

inductive Node where
  | regular (f : File)
  | block (f : File)

structure FileDevice where
  f : File
  blocks : Nat

namespace FileDevice

/-- Truncate the file and give it `blocks` blocks.  The host takes lengths below `2 ^ 63`. -/
def create (f : File) (blocks : Nat) : Except (Fault Error) FileDevice :=
  if 2 ^ 64 ≤ blocks * size then .error .panic
  else if 2 ^ 63 ≤ blocks * size then .error (.err .io)
  else .ok ⟨{ f with bytes := List.replicate (blocks * size) 0 }, blocks⟩

/-- The block count is inferred from the length in the metadata, which is 0 for a block
device node. -/
def openPath : Node → FileDevice
  | .regular f => ⟨f, f.bytes.length / size⟩
  | .block f => ⟨f, 0⟩

def onFile {α : Type} (x : Exec Error File α) : Exec Error FileDevice α :=
  zoom FileDevice.f (fun f d => { d with f := f }) id x

def readBlock (num : Nat) : Exec Error FileDevice Bytes := fun d =>
  if d.blocks ≤ num then .error (.err .outOfRange) d
    else onFile (File.readExactAt (num * size) size) d

def writeBlock (num : Nat) (data : Bytes) : Exec Error FileDevice Unit := fun d =>
  if d.blocks ≤ num then .error (.err .outOfRange) d
  else if data.length ≠ size then .error (.err .shortData) d
  else onFile (File.writeAllAt (num * size) data) d

def sync : Exec Error FileDevice Unit := onFile File.syncAll

end FileDevice

/-- A raw device has the fields and the calls of a file device. -/
abbrev RawDevice := FileDevice

/-- The size is asked of the kernel, which refuses it for a regular file. -/
def RawDevice.openPath : Node → Except Error RawDevice
  | .regular _ => .error .io
  | .block f => .ok ⟨f, f.bytes.length / size⟩

/-! ## Requests -/

/-- A call of the trait.  The origin of a write is for the record of a disk alone. -/
inductive Request where
  | read (num : Nat)
  | write (origin : Origin) (num : Nat) (data : Bytes)
  | blocks
  | sync
  deriving DecidableEq

inductive Reply where
  | block (b : Bytes)
  | count (n : Nat)
  | done
  deriving DecidableEq

def MemDevice.serve : Request → Exec Error MemDevice Reply
  | .read num => Reply.block <$> readBlock num
  | .write _ num data => (fun _ => Reply.done) <$> writeBlock num data
  | .blocks => fun m => .ok (.count m.blocks) m
  | .sync => (fun _ => Reply.done) <$> sync

def FileDevice.serve : Request → Exec Error FileDevice Reply
  | .read num => Reply.block <$> readBlock num
  | .write _ num data => (fun _ => Reply.done) <$> writeBlock num data
  | .blocks => fun d => .ok (.count d.blocks) d
  | .sync => (fun _ => Reply.done) <$> sync

/-- The outcome of a call and the state it leaves. -/
def outcome {σ α : Type} : EStateM.Result (Fault Error) σ α → Except (Fault Error) α × σ
  | .ok a s => (.ok a, s)
  | .error e s => (.error e, s)

/-- The answers to a list of requests, and the state after them. -/
def answers {σ : Type} (serve : Request → Exec Error σ Reply) :
    List Request → σ → List (Except (Fault Error) Reply) × σ
  | [], s => ([], s)
  | r :: rs, s =>
      let x := outcome (serve r s)
      let rest := answers serve rs x.2
      (x.1 :: rest.1, rest.2)

section Answers

variable {σ : Type} {serve : Request → Exec Error σ Reply} {r : Request} {s s' : σ}
  {a : Except (Fault Error) Reply}

theorem answers_cons (rs : List Request) (h : outcome (serve r s) = (a, s')) :
    answers serve (r :: rs) s = (a :: (answers serve rs s').1, (answers serve rs s').2) := by
  simp only [answers, h]

end Answers

/-! ## Blocks in a string of bytes -/

/-- The bytes hold `blocks` blocks with the content of `image`. -/
structure Holds (b : Bytes) (blocks : Nat) (image : Nat → Bytes) : Prop where
  len : blocks * size ≤ b.length
  image : ∀ n, n < blocks → slice b (n * size) size = image n

section Holds

variable {b data : Bytes} {blocks num : Nat} {image : Nat → Bytes}

theorem block_end (h : num < blocks) : num * size + size ≤ blocks * size := by
  rw [← Nat.succ_mul]
  exact Nat.mul_le_mul_right size h

theorem Holds.room (h : Holds b blocks image) (hn : num < blocks) : num * size + size ≤ b.length :=
  (block_end hn).trans h.len

theorem slice_zeros (h : num * size + size ≤ blocks * size) :
    slice (List.replicate (blocks * size) 0) (num * size) size = zeroBlock := by
  unfold slice zeroBlock
  rw [List.drop_replicate, List.take_replicate, Nat.min_eq_left (by omega)]

/-- A write within a block changes that block alone. -/
theorem Holds.write (h : Holds b blocks image) (hn : num < blocks) (hd : data.length ≤ size) :
    Holds (patch b (num * size) data) blocks
      (Function.update image num (slice (patch b (num * size) data) (num * size) size)) := by
  have hroom : num * size + data.length ≤ b.length := (Nat.add_le_add_left hd _).trans (h.room hn)
  refine ⟨(length_patch hroom).symm ▸ h.len, fun n hlt => ?_⟩
  by_cases hne : n = num
  · subst hne
    rw [Function.update_self]
  · rw [Function.update_of_ne hne, ← h.image n hlt]
    apply slice_patch_of_disjoint hroom
    rcases Nat.lt_or_gt_of_ne hne with hlo | hhi
    · exact .inl (block_end hlo)
    · exact .inr ((Nat.add_le_add_left hd _).trans (block_end hhi))

end Holds

end Devices

/-! ## Requests to a disk -/

namespace Block
namespace Disk

open Bytes Exec Devices

def serve : Request → Exec Error Disk Reply
  | .read num => fun d =>
      match d.readBlock num with
      | .ok b => .ok (.block b) d
      | .error e => .error (.err e) d
  | .write o num data => (fun _ => Reply.done) <$> writeBlock o num data
  | .blocks => fun d => .ok (.count d.blocks) d
  | .sync => (fun _ => Reply.done) <$> sync


/-- The disk with another fault oracle. -/
def withFault (d : Disk) (fault : Call → Nat → Option (Option Bytes)) : Disk :=
  { d with fault := fault }

def wrote (d : Disk) (o : Origin) (num : Nat) (b : Bytes) : Disk :=
  { d with
    image := Function.update d.image num b
    calls := d.calls + 1
    trace := d.trace ++ [.write o num b] }

def synced (d : Disk) : Disk := { d with calls := d.calls + 1, trace := d.trace ++ [.sync] }

variable {d : Disk} {o : Origin} {num : Nat} {data b : Bytes}

theorem serve_read (h : num < d.blocks) :
    outcome (serve (.read num) d) = (.ok (.block (d.image num)), d) := by
  simp only [serve, readBlock, if_neg (Nat.not_le.mpr h)]
  rfl

theorem serve_read_out (h : d.blocks ≤ num) :
    outcome (serve (.read num) d) = (.error (.err .outOfRange), d) := by
  simp only [serve, readBlock, if_pos h]
  rfl

theorem serve_write_out (h : d.blocks ≤ num) :
    outcome (serve (.write o num data) d) = (.error (.err .outOfRange), d) := by
  have hrun : writeBlock o num data d = .error (.err .outOfRange) d := if_pos h
  exact congrArg outcome (bind_of_error hrun)

theorem serve_write_short (h : num < d.blocks) (hd : data.length ≠ size) :
    outcome (serve (.write o num data) d) = (.error (.err .shortData), d) := by
  have hrun : writeBlock o num data d = .error (.err .shortData) d :=
    (if_neg (Nat.not_le.mpr h)).trans (if_pos hd)
  exact congrArg outcome (bind_of_error hrun)

theorem serve_write (h : num < d.blocks) (hd : data.length = size)
    (hf : d.fault (.write o) d.calls = none) :
    outcome (serve (.write o num data) d) = (.ok .done, d.wrote o num data) := by
  have hrun : writeBlock o num data d = .ok () (d.wrote o num data) := by
    unfold writeBlock
    rw [if_neg (Nat.not_le.mpr h), if_neg (not_not.mpr hd), hf]
    rfl
  exact congrArg outcome (bind_of_ok hrun)

theorem serve_write_torn (h : num < d.blocks) (hd : data.length = size)
    (hf : d.fault (.write o) d.calls = some (some b)) :
    outcome (serve (.write o num data) d) = (.error (.err .io), d.wrote o num b) := by
  have hrun : writeBlock o num data d = .error (.err .io) (d.wrote o num b) := by
    unfold writeBlock
    rw [if_neg (Nat.not_le.mpr h), if_neg (not_not.mpr hd), hf]
    rfl
  exact congrArg outcome (bind_of_error hrun)

theorem serve_sync (hf : d.fault .sync d.calls = none) :
    outcome (serve .sync d) = (.ok .done, d.synced) := by
  have hrun : sync d = .ok () d.synced := by
    unfold sync
    rw [hf]
    rfl
  exact congrArg outcome (bind_of_ok hrun)

theorem serve_sync_lost (hf : d.fault .sync d.calls = some (some b)) :
    outcome (serve .sync d) = (.error (.err .io), d.synced) := by
  have hrun : sync d = .error (.err .io) d.synced := by
    unfold sync
    rw [hf]
    rfl
  exact congrArg outcome (bind_of_error hrun)

/-- The disk answers `r` with `a` and goes on as `d'`, whatever its oracle says about
other calls than the one it makes, if it makes one. -/
def Follows (d : Disk) (r : Request) (a : Except (Fault Error) Reply) (d' : Disk) : Prop :=
  (d'.calls = d.calls ∧ d'.blocks = d.blocks ∧ ∀ fault, outcome (serve r (d.withFault fault)) =
    (a, d'.withFault fault)) ∨
  (d'.calls = d.calls + 1 ∧ d'.blocks = d.blocks ∧ ∃ x, ∀ fault, (∀ c, fault c d.calls = x) →
    outcome (serve r (d.withFault fault)) = (a, d'.withFault fault))

end Disk
end Block

namespace Devices

open Bytes Exec Block

/-! ## The in-memory device -/

namespace MemDevice

/-- The buffer holds the blocks of a disk that reports no error. -/
structure Backs (m : MemDevice) (d : Disk) : Prop where
  blocks : m.blocks = d.blocks
  holds : Holds m.data d.blocks d.image
  reliable : d.Reliable

variable {m : MemDevice} {d : Disk}

theorem Backs.step (h : m.Backs d) (r : Request) :
    ∃ a m' d', outcome (serve r m) = (a, m') ∧ outcome (Disk.serve r d) = (a, d') ∧
    m'.Backs d' ∧ a ≠ .error .panic := by
  cases r with
  | blocks => exact ⟨_, m, d, rfl, by rw [h.blocks]; rfl, h, nofun⟩
  | sync =>
    exact ⟨.ok .done, m, d.synced, rfl, Disk.serve_sync (h.reliable .sync d.calls),
      ⟨h.blocks, h.holds, h.reliable⟩, nofun⟩
  | read num =>
    by_cases hn : d.blocks ≤ num
    · have hrun : readBlock num m = .error (.err .outOfRange) m := if_pos (h.blocks ▸ hn)
      exact ⟨_, m, d, congrArg outcome (bind_of_error hrun), Disk.serve_read_out hn, h, nofun⟩
    · have hlt := Nat.not_le.mp hn
      have hrun : readBlock num m = .ok (d.image num) m := by
        unfold readBlock
        rw [h.blocks, if_neg hn, if_neg (Nat.not_lt.mpr (h.holds.room hlt)), h.holds.image num hlt]
      exact ⟨_, m, d, congrArg outcome (bind_of_ok hrun), Disk.serve_read hlt, h, nofun⟩
  | write o num data =>
    by_cases hn : d.blocks ≤ num
    · have hrun : writeBlock num data m = .error (.err .outOfRange) m := if_pos (h.blocks ▸ hn)
      exact ⟨_, m, d, congrArg outcome (bind_of_error hrun), Disk.serve_write_out hn, h, nofun⟩
    have hlt := Nat.not_le.mp hn
    by_cases hd : data.length = size
    · have hroom := h.holds.room hlt
      have hrun : writeBlock num data m =
          .ok () { m with data := patch m.data (num * size) data } := by
        unfold writeBlock
        rw [h.blocks, if_neg hn, if_neg (not_not.mpr hd), if_neg (Nat.not_lt.mpr hroom)]
      refine ⟨_, _, _, congrArg outcome (bind_of_ok hrun), Disk.serve_write hlt hd (h.reliable _ _),
        ⟨h.blocks, ?_, h.reliable⟩, nofun⟩
      have hput := h.holds.write hlt hd.le
      rwa [← hd, slice_patch_self (hd.symm ▸ hroom), hd] at hput
    · have hrun : writeBlock num data m = .error (.err .shortData) m := by
        unfold writeBlock
        rw [h.blocks, if_neg hn, if_pos hd]
      exact ⟨_, m, d, congrArg outcome (bind_of_error hrun), Disk.serve_write_short hlt hd, h,
        nofun⟩

theorem Backs.run (h : m.Backs d) (rs : List Request) :
    (answers serve rs m).1 = (answers Disk.serve rs d).1 ∧
      ∀ a ∈ (answers serve rs m).1, a ≠ .error .panic := by
  induction rs generalizing m d with
  | nil => exact ⟨rfl, nofun⟩
  | cons r rs ih =>
    obtain ⟨a, m', d', hm, hd, h', hno⟩ := h.step r
    obtain ⟨hsame, hnone⟩ := ih h'
    rw [answers_cons rs hm, answers_cons rs hd, hsame]
    refine ⟨rfl, fun b hb => ?_⟩
    rcases List.mem_cons.mp hb with rfl | hb
    · exact hno
    · exact hnone b (hsame ▸ hb)

end MemDevice

/-- An in-memory device answers every list of requests as the zeroed disk, and never
panics. -/
theorem mem_device_is_disk {n : Nat} {m : MemDevice} (hm : MemDevice.new n = .ok m)
    (hn : n < 2 ^ 64) (rs : List Request) :
    (answers MemDevice.serve rs m).1 = (answers Disk.serve rs (Disk.zeroed n hn)).1 ∧
      ∀ a ∈ (answers MemDevice.serve rs m).1, a ≠ .error .panic := by
  unfold MemDevice.new at hm
  split at hm
  · cases hm
  · cases hm
    refine MemDevice.Backs.run ⟨rfl, ⟨?_, fun i hi => ?_⟩, fun _ _ => rfl⟩ rs
    · exact (List.length_replicate ..).ge
    · exact slice_zeros (block_end hi)

/-- A block of ones is written to a device of four blocks and read back. -/
theorem mem_device_is_disk_four : ∃ m, MemDevice.new 4 = .ok m ∧
    (answers MemDevice.serve [.write .data 3 (List.replicate size 1), .read 3, .sync] m).1 =
      [.ok .done, .ok (.block (List.replicate size 1)), .ok .done] := by
  have hn : 4 < 2 ^ 64 := by decide
  obtain ⟨m, hm⟩ : ∃ m, MemDevice.new 4 = .ok m := ⟨_, rfl⟩
  refine ⟨m, hm, (mem_device_is_disk hm hn _).1.trans ?_⟩
  generalize hones : List.replicate size (1 : UInt8) = ones
  have hlen : ones.length = size := hones ▸ List.length_replicate
  have hin : 3 < 4 := by decide
  have h₁ : outcome (Disk.serve (.write .data 3 ones) (Disk.zeroed 4 hn)) = (.ok .done, _) :=
    Disk.serve_write hin hlen rfl
  have h₂ : outcome (Disk.serve (.read 3) ((Disk.zeroed 4 hn).wrote .data 3 ones)) =
      (.ok (.block ones), (Disk.zeroed 4 hn).wrote .data 3 ones) := by
    rw [Disk.serve_read hin]
    simp [Disk.wrote]
  rw [answers_cons _ h₁, answers_cons _ h₂]
  rfl

/-! ## The devices on a file -/

namespace FileDevice

/-- The file holds the blocks of the disk, and has no room for more. -/
structure Backs (f : FileDevice) (d : Disk) : Prop where
  blocks : f.blocks = d.blocks
  holds : Holds f.f.bytes d.blocks d.image
  full : f.f.bytes.length / size = f.blocks

variable {f : FileDevice} {d : Disk} {num : Nat} {data : Bytes}

theorem put_eq (g : File) (off : Nat) (data : Bytes) (h : off ≤ g.bytes.length) :
    (g.put off data).bytes = patch g.bytes off data := by
  unfold File.put
  rw [Nat.sub_eq_zero_of_le h, List.replicate_zero, List.append_nil]

/-- A write within a block of the file. -/
theorem Backs.put (h : f.Backs d) (hn : num < d.blocks) (hd : data.length ≤ size) (o : Origin) :
    (⟨f.f.put (num * size) data, f.blocks⟩ : FileDevice).Backs
      (d.wrote o num (slice (patch f.f.bytes (num * size) data) (num * size) size)) := by
  have hroom := h.holds.room hn
  have hbytes := put_eq f.f (num * size) data (le_of_add_le_left hroom)
  refine ⟨h.blocks, ?_, ?_⟩
  · show Holds (f.f.put (num * size) data).bytes _ _
    rw [hbytes]
    exact h.holds.write hn hd
  · show (f.f.put (num * size) data).bytes.length / size = f.blocks
    rw [hbytes, length_patch ((Nat.add_le_add_left hd _).trans hroom), h.full]

theorem Backs.step_write (h : f.Backs d) (hn : num < d.blocks) (hd : data.length = size)
    (o : Origin) :
    ∃ a f' d', outcome (serve (.write o num data) f) = (a, f') ∧
        d.Follows (.write o num data) a d' ∧ f'.Backs d' := by
  have hcall : writeBlock num data f = onFile (File.writeAllAt (num * size) data) f := by
    unfold writeBlock
    rw [h.blocks, if_neg (Nat.not_le.mpr hn), if_neg (not_not.mpr hd)]
  cases ht : f.f.tears f.f.calls with
  | none =>
    have hrun : writeBlock num data f = .ok () ⟨f.f.put (num * size) data, f.blocks⟩ := by
      rw [hcall]
      unfold onFile zoom File.writeAllAt
      rw [ht]
    have hput := h.put hn hd.le o
    rw [← hd, slice_patch_self (hd.symm ▸ h.holds.room hn), hd] at hput
    exact ⟨.ok .done, _, d.wrote o num data, congrArg outcome (bind_of_ok hrun),
      .inr ⟨rfl, rfl, none, fun fault hf => Disk.serve_write (d := d.withFault fault) hn hd (hf _)⟩,
      hput⟩
  | some k =>
    have hrun : writeBlock num data f =
        .error (.err .io) ⟨f.f.put (num * size) (data.take k), f.blocks⟩ := by
      rw [hcall]
      unfold onFile zoom File.writeAllAt
      rw [ht]
      rfl
    have hk : (data.take k).length ≤ size := (List.length_take_le' k data).trans hd.le
    exact ⟨.error (.err .io), _, d.wrote o num _, congrArg outcome (bind_of_error hrun),
      .inr ⟨rfl, rfl, some (some _), fun fault hf => Disk.serve_write_torn (d := d.withFault fault)
        hn hd (hf _)⟩,
      h.put hn hk o⟩

theorem Backs.step_sync (h : f.Backs d) :
    ∃ a f' d', outcome (serve .sync f) = (a, f') ∧ d.Follows .sync a d' ∧ f'.Backs d' := by
  cases hl : f.f.loses f.f.calls with
  | false =>
    have hrun : sync f = .ok () ⟨{ f.f with calls := f.f.calls + 1 }, f.blocks⟩ := by
      unfold sync onFile zoom File.syncAll
      rw [hl]
      rfl
    exact ⟨_, _, d.synced, congrArg outcome (bind_of_ok hrun),
      .inr ⟨rfl, rfl, none, fun fault hf => Disk.serve_sync (d := d.withFault fault) (hf _)⟩,
      h.blocks, h.holds, h.full⟩
  | true =>
    have hrun : sync f = .error (.err .io) ⟨{ f.f with calls := f.f.calls + 1 }, f.blocks⟩ := by
      unfold sync onFile zoom File.syncAll
      rw [hl]
      rfl
    exact ⟨_, _, d.synced, congrArg outcome (bind_of_error hrun),
      .inr ⟨rfl, rfl, some (some []), fun fault hf => Disk.serve_sync_lost (d := d.withFault fault)
        (hf _)⟩,
      h.blocks, h.holds, h.full⟩

theorem Backs.step (h : f.Backs d) (r : Request) :
    ∃ a f' d', outcome (serve r f) = (a, f') ∧ d.Follows r a d' ∧ f'.Backs d' := by
  cases r with
  | blocks =>
    refine ⟨.ok (.count d.blocks), f, d, ?_, .inl ⟨rfl, rfl, fun _ => rfl⟩, h⟩
    rw [← h.blocks]
    rfl
  | sync => exact h.step_sync
  | read num =>
    by_cases hn : d.blocks ≤ num
    · have hrun : readBlock num f = .error (.err .outOfRange) f := if_pos (h.blocks ▸ hn)
      exact ⟨_, f, d, congrArg outcome (bind_of_error hrun),
        .inl ⟨rfl, rfl, fun fault => Disk.serve_read_out (d := d.withFault fault) hn⟩, h⟩
    · have hlt := Nat.not_le.mp hn
      have hrun : readBlock num f = .ok (d.image num) f := by
        unfold readBlock onFile zoom File.readExactAt
        rw [h.blocks, if_neg hn, if_neg (Nat.not_lt.mpr (h.holds.room hlt)), h.holds.image num hlt]
      exact ⟨_, f, d, congrArg outcome (bind_of_ok hrun),
        .inl ⟨rfl, rfl, fun fault => Disk.serve_read (d := d.withFault fault) hlt⟩, h⟩
  | write o num data =>
    by_cases hn : d.blocks ≤ num
    · have hrun : writeBlock num data f = .error (.err .outOfRange) f := if_pos (h.blocks ▸ hn)
      exact ⟨_, f, d, congrArg outcome (bind_of_error hrun),
        .inl ⟨rfl, rfl, fun fault => Disk.serve_write_out (d := d.withFault fault) hn⟩, h⟩
    have hlt := Nat.not_le.mp hn
    by_cases hd : data.length = size
    · exact h.step_write hlt hd o
    · have hrun : writeBlock num data f = .error (.err .shortData) f := by
        unfold writeBlock
        rw [h.blocks, if_neg hn, if_pos hd]
      exact ⟨_, f, d, congrArg outcome (bind_of_error hrun),
        .inl ⟨rfl, rfl, fun fault => Disk.serve_write_short (d := d.withFault fault) hlt hd⟩, h⟩

/-- The oracle is built from the last request back: the one for the requests that follow,
with what this request needs put in at its own call. -/
theorem Backs.run (h : f.Backs d) (rs : List Request) :
    ∃ fault₀ : Call → Nat → Option (Option Bytes), ∀ fault,
    (∀ c n, d.calls ≤ n → fault c n = fault₀ c n) →
      (answers serve rs f).1 = (answers Disk.serve rs (d.withFault fault)).1 ∧
      (answers serve rs f).2.Backs (answers Disk.serve rs (d.withFault fault)).2 ∧
      (answers Disk.serve rs (d.withFault fault)).2.blocks = d.blocks := by
  induction rs generalizing f d with
  | nil => exact ⟨d.fault, fun fault _ => ⟨rfl, ⟨h.blocks, h.holds, h.full⟩, rfl⟩⟩
  | cons r rs ih =>
    obtain ⟨a, f', d', hf, hd, h'⟩ := h.step r
    obtain ⟨fault₁, hrest⟩ := ih h'
    rw [answers_cons rs hf]
    rcases hd with ⟨hcalls, hblocks, hd⟩ | ⟨hcalls, hblocks, x, hd⟩
    · refine ⟨fault₁, fun fault hfault => ?_⟩
      obtain ⟨hans, hback, hsame⟩ := hrest fault fun c n hn => hfault c n (hcalls ▸ hn)
      rw [answers_cons rs (hd fault)]
      exact ⟨congrArg _ hans, hback, hsame.trans hblocks⟩
    · refine ⟨fun c n => if n = d.calls then x else fault₁ c n, fun fault hfault => ?_⟩
      have hhead : ∀ c, fault c d.calls = x := fun c => (hfault c _ le_rfl).trans (if_pos rfl)
      obtain ⟨hans, hback, hsame⟩ := hrest fault fun c n hn =>
        (hfault c n (by omega)).trans (if_neg (by omega))
      rw [answers_cons rs (hd fault hhead)]
      exact ⟨congrArg _ hans, hback, hsame.trans hblocks⟩

/-- The ways to a device on a file. -/
inductive Made : FileDevice → Prop
  | create {g : File} {n : Nat} {f : FileDevice} (h : create g n = .ok f) : Made f
  | file (g : File) : Made (openPath (.regular g))
  | raw {g : File} {f : FileDevice} (h : RawDevice.openPath (.block g) = .ok f) : Made f

/-- A device has as many blocks as its file has room for. -/
theorem Made.full (h : Made f) : f.f.bytes.length / size = f.blocks := by
  cases h with
  | @create g n _ h =>
    unfold FileDevice.create at h
    split at h
    · cases h
    · split at h
      · cases h
      · cases h
        rw [List.length_replicate]
        exact Nat.mul_div_cancel n (by decide)
  | file g => rfl
  | raw h =>
    cases h
    rfl

/-- The disk with the blocks of the file. -/
def toDisk (f : FileDevice) (h : f.blocks < 2 ^ 64) : Disk :=
  { Disk.zeroed f.blocks h with image := fun n => slice f.f.bytes (n * size) size }

theorem Made.backs (h : Made f) (hlt : f.blocks < 2 ^ 64) : f.Backs (f.toDisk hlt) := by
  refine ⟨rfl, ⟨?_, fun _ _ => rfl⟩, h.full⟩
  show f.blocks * size ≤ f.f.bytes.length
  rw [← h.full]
  exact Nat.div_mul_le_self _ _

end FileDevice

/-- An image file or a block device node answers every list of requests as the disk with
its blocks, for some oracle, whatever writes and syncs the host refuses.  The file then
holds the blocks of that disk, and opening it again gives the device as it is. -/
theorem image_is_disk {f : FileDevice} (h : FileDevice.Made f) (hlt : f.blocks < 2 ^ 64)
    (rs : List Request) :
    ∃ fault, (answers FileDevice.serve rs f).1 =
      (answers Disk.serve rs ((f.toDisk hlt).withFault fault)).1 ∧
      (∀ n, n < f.blocks → slice (answers FileDevice.serve rs f).2.f.bytes (n * size) size =
        (answers Disk.serve rs ((f.toDisk hlt).withFault fault)).2.image n) ∧
      FileDevice.openPath (.regular (answers FileDevice.serve rs f).2.f) =
        (answers FileDevice.serve rs f).2 ∧
      RawDevice.openPath (.block (answers FileDevice.serve rs f).2.f) =
          .ok (answers FileDevice.serve rs f).2 := by
  obtain ⟨fault, hrun⟩ := (h.backs hlt).run rs
  obtain ⟨hans, hback, hblocks⟩ := hrun fault fun _ _ _ => rfl
  refine ⟨fault, hans, fun n hn => hback.holds.image n (hblocks ▸ hn), ?_, ?_⟩
  · simp only [FileDevice.openPath, hback.full]
  · simp only [RawDevice.openPath, hback.full]

/-- The host tears a write of ones to an image of two blocks after three bytes.  The block
is then three ones and zeros. -/
theorem image_is_disk_torn : ∃ f : FileDevice, FileDevice.Made f ∧ f.blocks = 2 ∧ ∃ hlt :
    f.blocks < 2 ^ 64, ∃ fault,
    (answers Disk.serve [.write .uber 1 (List.replicate size 1), .read 1]
      ((f.toDisk hlt).withFault fault)).1 =
      [.error (.err .io), .ok (.block (List.replicate 3 1 ++ List.replicate (size - 3) 0))] := by
  obtain ⟨f, hf, hb, ht, hbytes⟩ : ∃ f : FileDevice, FileDevice.Made f ∧ f.blocks = 2 ∧
      f.f.tears = (fun _ => some 3) ∧ f.f.bytes = List.replicate (2 * size) 0 :=
    ⟨_, .create (g := ⟨[], fun _ => some 3, fun _ => false, 0⟩) (n := 2) rfl, rfl, rfl, rfl⟩
  have hlt : f.blocks < 2 ^ 64 := hb.trans_lt (by decide)
  have hin : ¬ f.blocks ≤ 1 := by
    rw [hb]
    decide
  have hwrite : FileDevice.writeBlock 1 (List.replicate size 1) f =
      .error (.err .io) ⟨f.f.put (1 * size) (List.replicate 3 1), f.blocks⟩ := by
    have hlen : (List.replicate size (1 : UInt8)).length = size := List.length_replicate
    unfold FileDevice.writeBlock FileDevice.onFile zoom File.writeAllAt
    simp only [if_neg hin, hlen, ne_eq, not_true_eq_false, if_false, ht, List.take_replicate]
    rfl
  -- the torn file, and its second block
  have htorn : (f.f.put (1 * size) (List.replicate 3 1)).bytes =
      List.replicate size 0 ++ (List.replicate 3 1 ++ List.replicate (size - 3) 0) := by
    have hroom : 1 * size ≤ f.f.bytes.length := by
      rw [hbytes, List.length_replicate]
      decide
    rw [FileDevice.put_eq _ _ _ hroom, hbytes]
    simp only [patch, List.take_replicate, List.drop_replicate, List.length_replicate,
      List.append_assoc]
    rfl
  have hread : FileDevice.readBlock 1 ⟨f.f.put (1 * size) (List.replicate 3 1), f.blocks⟩ =
      .ok (List.replicate 3 1 ++ List.replicate (size - 3) 0)
        ⟨f.f.put (1 * size) (List.replicate 3 1), f.blocks⟩ := by
    have hlen : (List.replicate 3 (1 : UInt8) ++ List.replicate (size - 3) 0).length = size := by
      rw [List.length_append, List.length_replicate, List.length_replicate]
      decide
    have hblock : slice (f.f.put (1 * size) (List.replicate 3 1)).bytes (1 * size) size =
        List.replicate 3 1 ++ List.replicate (size - 3) 0 := by
      rw [htorn, slice_append_right (by rw [List.length_replicate, Nat.one_mul]),
        List.length_replicate, Nat.one_mul, Nat.sub_self, slice_self hlen]
    have hroom : ¬ (f.f.put (1 * size) (List.replicate 3 1)).bytes.length < 1 * size + size := by
      rw [htorn, List.length_append, List.length_replicate, hlen, Nat.one_mul]
      exact Nat.lt_irrefl _
    unfold FileDevice.readBlock FileDevice.onFile zoom File.readExactAt
    simp only [if_neg hin, if_neg hroom, hblock]
  obtain ⟨fault, hans, -⟩ :=
    image_is_disk hf hlt [.write .uber 1 (List.replicate size 1), .read 1]
  refine ⟨f, hf, hb, hlt, fault, hans.symm.trans ?_⟩
  have h₁ : outcome (FileDevice.serve (.write .uber 1 (List.replicate size 1)) f) =
      (.error (.err .io), _) := congrArg outcome (bind_of_error hwrite)
  have h₂ : outcome (FileDevice.serve (.read 1)
      ⟨f.f.put (1 * size) (List.replicate 3 1), f.blocks⟩) = (.ok (.block _), _) :=
    congrArg outcome (bind_of_ok hread)
  rw [answers_cons _ h₁, answers_cons _ h₂]
  rfl

end Devices
end BloomFS
