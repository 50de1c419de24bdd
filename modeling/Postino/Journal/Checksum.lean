import Postino.Journal.Line
import Postino.Lib.Crc

/-!
# What the checksum catches

The checksum of the journal's lines and of snapshots is a cyclic redundancy check, worked
out a byte at a time from a table.

* `crc32c_extend_append` — taken part by part, it is that of the whole;
* `Summed.run` — so is the one a snapshot goes by;
* `crc32c_ne` — it is changed by any damage within four adjacent bytes.
-/

namespace Postino.Journal

open Lib

/-! ## The table -/

/-- The polynomial, low bit first. -/
def POLYNOMIAL : BitVec 32 := 0x82f63b78

theorem crcBit_eq (crc : BitVec 32) : crcBit crc = Crc.tick POLYNOMIAL crc := by
  have hLow : crc &&& 1 = BitVec.setWidth 32 (BitVec.ofBool (crc.getLsbD 0)) :=
    BitVec.and_one_eq_setWidth_ofBool_getLsbD
  unfold crcBit Crc.tick
  rw [hLow]
  cases crc.getLsbD 0 <;> rfl

theorem TABLE_eq (i : BitVec 32) : TABLE i = (Crc.tick POLYNOMIAL)^[8] i := by
  unfold TABLE
  rw [show crcBit = Crc.tick POLYNOMIAL from funext crcBit_eq]

theorem crc32c_step_eq (crc : BitVec 32) (byte : UInt8) : crc32c_step crc byte = Crc.feed POLYNOMIAL crc byte := by
  have hLow : (crc ^^^ byte.toBitVec.zeroExtend 32) >>> 8 = crc >>> 8 := by
    rw [BitVec.ushiftRight_xor_distrib]
    have hNone : (byte.toBitVec.zeroExtend 32) >>> 8 = 0#32 := by
      refine BitVec.eq_of_getLsbD_eq fun i _ => ?_
      rw [BitVec.getLsbD_ushiftRight, BitVec.getLsbD_zero]
      exact Crc.low_high byte (by omega)
    rw [hNone, BitVec.xor_zero]
  rw [Crc.feed_table]
  unfold crc32c_step
  rw [TABLE_eq, ← hLow]
  rfl

theorem crc32c_extend_eq (crc : BitVec 32) (bytes : Bytes) :
    crc32c_extend crc bytes = ~~~ Crc.feeds POLYNOMIAL (~~~ crc) bytes := by
  unfold crc32c_extend Crc.feeds
  rw [show crc32c_step = Crc.feed POLYNOMIAL from funext fun crc => funext (crc32c_step_eq crc)]

/-! ## Parts -/

/-- Extended by some bytes and then by more, it is extended by all of them. -/
theorem crc32c_extend_append (crc : BitVec 32) (a b : Bytes) :
    crc32c_extend (crc32c_extend crc a) b = crc32c_extend crc (a ++ b) := by
  rw [crc32c_extend_eq, crc32c_extend_eq, crc32c_extend_eq, BitVec.not_not, Crc.feeds_append]

/-- `,"c":"`, and after eight digits `"` and the brace that closes the snapshot. -/
def SNAPSHOT_END_START : Bytes := ascii ",\"c\":\""
def SNAPSHOT_END_STOP : Bytes := ascii "\"\x7d"

/-- The check that a snapshot matches the checksum it ends with. -/
def snapshot_intact (raw : Bytes) : Bool :=
  if 16 ≤ raw.length then
    let body := raw.take (raw.length - 16)
    let stop := raw.drop (raw.length - 16)
    SNAPSHOT_END_START.isPrefixOf stop && SNAPSHOT_END_STOP.isSuffixOf stop &&
      read_hex ((stop.drop 6).take 8) == some (crc32c body)
  else false

/-- What of a snapshot on its way to disk its checksum concerns: the parts added, and what
has gone to its file. A snapshot that cannot be written is given up. -/
structure SnapshotFile where
  parts : List Bytes := []
  file : Bytes := []
  crc : BitVec 32 := 0

namespace SnapshotFile

def add (s : SnapshotFile) (parts : List Bytes) : SnapshotFile := { s with parts := s.parts ++ parts }

def write_part (s : SnapshotFile) (part : Bytes) : SnapshotFile :=
  { s with file := s.file ++ part, crc := crc32c_extend s.crc part }

/-- Writes the parts added so far to the temporary file. -/
def flush (s : SnapshotFile) : SnapshotFile := s.parts.foldl write_part { s with parts := [] }

/-- What is in the file once it is complete. -/
def persist (s : SnapshotFile) : Bytes :=
  s.flush.file ++ (SNAPSHOT_END_START ++ write_hex s.flush.crc ++ SNAPSHOT_END_STOP)

/-- What is done to a snapshot before it is complete. -/
inductive Step where
  | add (parts : List Bytes)
  | flush

def step (s : SnapshotFile) : Step → SnapshotFile
  | .add parts => s.add parts
  | .flush => s.flush

def run (s : SnapshotFile) (steps : List Step) : SnapshotFile := steps.foldl step s

/-- The checksum is that of what is in the file. -/
def Summed (s : SnapshotFile) : Prop := s.crc = crc32c s.file

theorem Summed.write_part {s : SnapshotFile} (h : s.Summed) (part : Bytes) : (s.write_part part).Summed := by
  show crc32c_extend s.crc part = crc32c (s.file ++ part)
  rw [show s.crc = crc32c s.file from h]
  exact crc32c_extend_append 0 s.file part

theorem Summed.flush {s : SnapshotFile} (h : s.Summed) : s.flush.Summed := by
  have hParts : ∀ (parts : List Bytes) (s : SnapshotFile), s.Summed → (parts.foldl SnapshotFile.write_part s).Summed := by
    intro parts
    induction parts with
    | nil => exact fun _ h => h
    | cons part parts ih => exact fun s h => ih _ (h.write_part part)
  exact hParts s.parts { s with parts := [] } h

theorem Summed.run {s : SnapshotFile} (h : s.Summed) (steps : List Step) : (s.run steps).Summed := by
  induction steps generalizing s with
  | nil => exact h
  | cons step steps ih =>
    cases step with
    | add parts => exact ih h
    | flush => exact ih h.flush

/-- A file that ends with the checksum of the rest is intact. -/
theorem Summed.intact {s : SnapshotFile} (h : s.Summed) : snapshot_intact s.persist = true := by
  have hSummed : s.flush.crc = crc32c s.flush.file := h.flush
  unfold persist
  have hHex := length_write_hex s.flush.crc
  have hStop : (SNAPSHOT_END_START ++ write_hex s.flush.crc ++ SNAPSHOT_END_STOP).length = 16 := by
    rw [List.length_append, List.length_append, hHex]
    rfl
  generalize hEnd : SNAPSHOT_END_START ++ write_hex s.flush.crc ++ SNAPSHOT_END_STOP = stop at hStop
  have hAt : (s.flush.file ++ stop).length - 16 = s.flush.file.length := by
    rw [List.length_append, hStop, Nat.add_sub_cancel]
  have hDigits : (stop.drop 6).take 8 = write_hex s.flush.crc := by
    rw [← hEnd, List.append_assoc, List.drop_left' (show SNAPSHOT_END_START.length = 6 by rfl), List.take_left' hHex]
  have hStart : SNAPSHOT_END_START.isPrefixOf stop = true := by
    rw [List.isPrefixOf_iff_prefix, ← hEnd, List.append_assoc]
    exact List.prefix_append _ _
  have hLast : SNAPSHOT_END_STOP.isSuffixOf stop = true := by
    rw [List.isSuffixOf_iff_suffix, ← hEnd]
    exact List.suffix_append _ _
  unfold snapshot_intact
  rw [if_pos (by rw [List.length_append, hStop]; omega), hAt]
  dsimp only
  rw [List.take_left, List.drop_left, hStart, hLast, hDigits, read_hex_write_hex, hSummed]
  simp

end SnapshotFile

/-! ## Damage -/

/-- Two texts as long as each other that differ at most within `n` adjacent bytes. -/
def DiffersWithin (n : Nat) (a b : Bytes) : Prop :=
  a.length = b.length ∧ ∃ i, ∀ j, a[j]? ≠ b[j]? → i ≤ j ∧ j < i + n

/-- What is the same and what is not. -/
theorem DiffersWithin.split {n : Nat} {a b : Bytes} (h : DiffersWithin n a b) :
    ∃ start u v rest, a = start ++ (u ++ rest) ∧ b = start ++ (v ++ rest) ∧ u.length = v.length ∧ u.length ≤ n := by
  obtain ⟨hLength, i, hSame⟩ := h
  have hStart : a.take i = b.take i := by
    refine List.ext_getElem? fun j => ?_
    by_cases hIn : j < i
    · rw [List.getElem?_take_of_lt hIn, List.getElem?_take_of_lt hIn]
      by_contra hNe
      have := hSame j hNe
      omega
    · rw [List.getElem?_take_eq_none (by omega), List.getElem?_take_eq_none (by omega)]
  have hRest : (a.drop i).drop n = (b.drop i).drop n := by
    refine List.ext_getElem? fun j => ?_
    rw [List.drop_drop, List.drop_drop, List.getElem?_drop, List.getElem?_drop]
    by_contra hNe
    have := hSame _ hNe
    omega
  refine ⟨a.take i, (a.drop i).take n, (b.drop i).take n, (a.drop i).drop n, ?_, ?_, ?_, ?_⟩
  · rw [List.take_append_drop, List.take_append_drop]
  · rw [hStart, hRest, List.take_append_drop, List.take_append_drop]
  · rw [List.length_take, List.length_take, List.length_drop, List.length_drop, hLength]
  · rw [List.length_take]
    exact min_le_left _ _

/-- **Damage within four adjacent bytes changes the checksum.** -/
theorem crc32c_ne {a b : Bytes} (hNe : a ≠ b) (h : DiffersWithin 4 a b) : crc32c a ≠ crc32c b := by
  obtain ⟨start, u, v, rest, rfl, rfl, hLength, hFits⟩ := h.split
  have hWords : u ≠ v := fun hEq => hNe (by rw [hEq])
  unfold crc32c
  rw [crc32c_extend_eq, crc32c_extend_eq]
  intro hSame
  have hSame := congrArg (fun crc => ~~~crc) hSame
  simp only [BitVec.not_not] at hSame
  exact Crc.feeds_ne POLYNOMIAL (by decide) hLength (by omega) hWords _ hSame

theorem summed_start : (({} : SnapshotFile)).Summed := show (0 : BitVec 32) = crc32c [] by decide

/-- **The checksum composes, and catches what happens to four adjacent bytes.** Taken part by
part it is that of the whole, as a snapshot goes by it; a line whose text was so damaged is not
intact. -/
theorem checksum_exact :
    (∀ a b : Bytes, crc32c_extend (crc32c a) b = crc32c (a ++ b)) ∧
    (∀ steps : List SnapshotFile.Step,
      ((SnapshotFile.run {} steps).crc = crc32c (SnapshotFile.run {} steps).file) ∧
      snapshot_intact (SnapshotFile.run {} steps).persist = true) ∧
    (∀ a b : Bytes, a ≠ b → DiffersWithin 4 a b → crc32c a ≠ crc32c b) ∧
    ∀ digits body damaged : Bytes, digits.length = 8 → damaged ≠ body → DiffersWithin 4 damaged body →
      intact (CHECKSUM ++ digits ++ CHECKSUM_END ++ body ++ [newline]) = true →
      intact (CHECKSUM ++ digits ++ CHECKSUM_END ++ damaged ++ [newline]) = false := by
  refine ⟨crc32c_extend_append 0, fun steps => ?_, fun a b => crc32c_ne, ?_⟩
  · have hSummed : (SnapshotFile.run {} steps).Summed := SnapshotFile.Summed.run summed_start steps
    exact ⟨hSummed, hSummed.intact⟩
  · intro digits body damaged hDigits hNe hWithin hIntact
    rw [intact_iff hDigits] at hIntact
    refine Bool.eq_false_iff.mpr fun hStill => ?_
    rw [intact_iff hDigits, hIntact] at hStill
    exact crc32c_ne hNe hWithin (Option.some.inj hStill).symm

/-- A line whose text was `1` and now is `2`. -/
theorem checksum_exact_line :
    intact (CHECKSUM ++ write_hex (crc32c [49]) ++ CHECKSUM_END ++ [50] ++ [newline]) = false := by
  have hWithin : DiffersWithin 4 [50] [49] := by
    refine ⟨rfl, 0, fun j hNe => ?_⟩
    cases j with
    | zero => omega
    | succ j => exact absurd rfl hNe
  exact checksum_exact.2.2.2 (write_hex (crc32c [49])) [49] [50] (length_write_hex _) (by decide) hWithin
    ((intact_iff (length_write_hex _) _).mpr (read_hex_write_hex _))

end Postino.Journal
