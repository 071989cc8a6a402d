import Msicp.Support.Buffer

/-!
# Flat memory

A memory has a byte at every address.  Texts are written anywhere, over
whatever is there, and are read again as long as nothing else is written over
them.
-/

namespace Msicp.Support

/-- A byte at every address. -/
def FlatMemory := ℕ → UInt8

namespace FlatMemory

/-- `memcpy` of `bs` to the address `off`. -/
def write (m : FlatMemory) (off : ℕ) (bs : Bytes) : FlatMemory :=
  fun a => if off ≤ a ∧ a < off + bs.length then bs.getD (a - off) 0 else m a

/-- The `n` bytes at the address `off`. -/
def read (m : FlatMemory) (off n : ℕ) : Bytes :=
  (List.range n).map fun i => m (off + i)

/-- Several texts, each at its address, one after the other. -/
def writeAll (m : FlatMemory) (ws : List (ℕ × Bytes)) : FlatMemory :=
  ws.foldl (fun m w => m.write w.1 w.2) m

variable {m : FlatMemory} {off a n : ℕ} {bs : Bytes} {ws : List (ℕ × Bytes)}

@[simp] theorem read_length (m : FlatMemory) (off n : ℕ) : (m.read off n).length = n := by
  simp [read]

theorem write_outside (h : a < off ∨ off + bs.length ≤ a) : m.write off bs a = m a :=
  if_neg (by omega)

theorem read_write (m : FlatMemory) (off : ℕ) (bs : Bytes) :
    (m.write off bs).read off bs.length = bs := by
  apply List.ext_getElem
  · exact read_length _ _ _
  · intro i hi hbs
    simp [read, write, hbs]

theorem read_write_disjoint (h : off + bs.length ≤ a ∨ a + n ≤ off) :
    (m.write off bs).read a n = m.read a n := by
  apply List.map_congr_left
  intro i hi
  rw [List.mem_range] at hi
  exact write_outside (by omega)

theorem read_writeAll_disjoint (h : ∀ w ∈ ws, w.1 + w.2.length ≤ a ∨ a + n ≤ w.1) :
    (m.writeAll ws).read a n = m.read a n := by
  induction ws generalizing m with
  | nil => rfl
  | cons w ws ih =>
    have hrest := @ih (m.write w.1 w.2) fun x hx => h x (List.mem_cons_of_mem w hx)
    exact hrest.trans (read_write_disjoint (h w List.mem_cons_self))

theorem read_writeAll (before : List (ℕ × Bytes))
    (h : ∀ w ∈ ws, w.1 + w.2.length ≤ off ∨ off + bs.length ≤ w.1) :
    (m.writeAll (before ++ (off, bs) :: ws)).read off bs.length = bs := by
  have hsplit : m.writeAll (before ++ (off, bs) :: ws) =
      ((m.writeAll before).write off bs).writeAll ws := by
    simp [writeAll]
  rw [hsplit, read_writeAll_disjoint h]
  exact read_write _ _ _

end FlatMemory

end Msicp.Support
