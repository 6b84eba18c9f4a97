import Mathlib.Tactic

/-!
# Reading and writing a file at an offset
-/

namespace BitcoinMachineCode.Foundation

variable {β : Type*}

def pread (file : List β) (off len : Nat) : List β := (file.drop off).take len

/-- A write that starts inside the file or at its end. -/
def pwrite (file : List β) (off : Nat) (data : List β) : List β :=
  file.take off ++ data ++ file.drop (off + data.length)

theorem length_pwrite {file data : List β} {off : Nat} (h : off ≤ file.length) :
    (pwrite file off data).length = max file.length (off + data.length) := by
  simp only [pwrite, List.length_append, List.length_take, List.length_drop]
  omega

theorem pread_pwrite_same {file data : List β} {off : Nat} (h : off ≤ file.length) :
    pread (pwrite file off data) off data.length = data := by
  have htake : (file.take off).length = off := by simpa using h
  unfold pread pwrite
  rw [List.append_assoc, List.drop_left' htake, List.take_left']
  rfl

theorem pread_pwrite_before {file data : List β} {off o len : Nat} (hoff : off ≤ file.length)
    (h : o + len ≤ off) : pread (pwrite file off data) o len = pread file o len := by
  have htake : (file.take off).length = off := by simpa using hoff
  unfold pread pwrite
  rw [List.append_assoc, List.drop_append_of_le_length (by omega),
    List.take_append_of_le_length (by rw [List.length_drop]; omega), List.drop_take,
    List.take_take, min_eq_left (by omega)]

theorem pread_pwrite_after {file data : List β} {off o len : Nat} (hoff : off ≤ file.length)
    (h : off + data.length ≤ o) : pread (pwrite file off data) o len = pread file o len := by
  have htake : (file.take off ++ data).length = off + data.length := by simpa using hoff
  unfold pread pwrite
  rw [List.drop_append, List.drop_of_length_le (by omega), List.nil_append, htake,
    List.drop_drop]
  congr 2
  omega

theorem pread_append {before data after : List β} {off len : Nat} (hoff : before.length = off)
    (hlen : data.length = len) : pread (before ++ (data ++ after)) off len = data := by
  unfold pread
  rw [List.drop_left' hoff, List.take_left' hlen]

/-- A write over bytes of the same length. -/
theorem pwrite_append {before old data after : List β} {off : Nat} (hoff : before.length = off)
    (hlen : old.length = data.length) :
    pwrite (before ++ (old ++ after)) off data = before ++ (data ++ after) := by
  unfold pwrite
  rw [List.take_left' hoff, ← List.drop_drop, List.drop_left' hoff, List.drop_left' hlen,
    List.append_assoc]

@[simp] theorem length_pread (file : List β) (off len : Nat) :
    (pread file off len).length = min len (file.length - off) := by
  simp [pread]

theorem pread_pread {file : List β} {off len o n : Nat} (h : o + n ≤ len) :
    pread (pread file off len) o n = pread file (off + o) n := by
  unfold pread
  rw [List.drop_take, List.take_take, List.drop_drop, min_eq_left (by omega)]

theorem pread_append_left {front : List β} (back : List β) {off len : Nat}
    (h : off + len ≤ front.length) : pread (front ++ back) off len = pread front off len := by
  unfold pread
  rw [List.drop_append_of_le_length (by omega), List.take_append_of_le_length]
  rw [List.length_drop]
  omega

theorem pread_append_right (front back : List β) (off len : Nat) :
    pread (front ++ back) (front.length + off) len = pread back off len := by
  unfold pread
  rw [List.drop_append, List.drop_of_length_le (by omega), List.nil_append]
  congr 2
  omega

end BitcoinMachineCode.Foundation
