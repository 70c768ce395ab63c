import Xv6.BitField

/-! Disk blocks of `BSIZE` bytes. Numbers are read in the little-endian order of the machine, so the
32-bit word `i` is the field at bit `32 * i`. -/
namespace Xv6

def BSIZE : ℕ := 1024

/-- `uchar data[BSIZE]` -/
abbrev Block := BitVec 8192

abbrev Disk := ℕ → Block

def word (b : Block) (i : ℕ) : BitVec 32 := getField b (32 * i) 32

def setWord (b : Block) (i : ℕ) (v : BitVec 32) : Block := setField b (32 * i) v

@[simp] theorem word_setWord (b : Block) {i : ℕ} (v : BitVec 32) (hi : i < 256) :
    word (setWord b i v) i = v :=
  getField_setField b (32 * i) v (by omega)

theorem word_setWord_of_ne (b : Block) {i j : ℕ} (v : BitVec 32) (h : j ≠ i) :
    word (setWord b i v) j = word b j :=
  getField_setField_of_disjoint b (32 * i) (32 * j) v (by omega)

end Xv6
