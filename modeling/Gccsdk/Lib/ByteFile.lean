import Mathlib.Data.List.Basic

/-!
# Files of bytes

A file with its pointer, the plain operations on it (writing at the pointer, at the end, moving the
pointer, reading), and how writes in a row add up to one write.
-/

structure ByteFile where
  content : List UInt8
  pos : ℕ
  pos_le : pos ≤ content.length

namespace ByteFile

variable {f : ByteFile} {a b data : List UInt8} {n p : ℕ} {atEnd : Bool}

@[ext] theorem ext {f g : ByteFile} (hc : f.content = g.content) (hp : f.pos = g.pos) : f = g := by
  obtain ⟨content, pos, hle⟩ := f
  obtain ⟨content', pos', hle'⟩ := g
  obtain rfl : content = content' := hc
  obtain rfl : pos = pos' := hp
  rfl

/-- The bytes at the pointer become `data`. -/
def put (f : ByteFile) (data : List UInt8) : ByteFile where
  content := f.content.take f.pos ++ data ++ f.content.drop (f.pos + data.length)
  pos := f.pos + data.length
  pos_le := by
    have hle := f.pos_le
    rw [List.length_append, List.length_append, List.length_take]
    omega

/-- The pointer at `p`; a file that is shorter is extended with zeros. -/
def seek (f : ByteFile) (p : ℕ) : ByteFile where
  content := f.content ++ List.replicate (p - f.content.length) 0
  pos := p
  pos_le := by
    rw [List.length_append, List.length_replicate]
    omega

def toEnd (f : ByteFile) : ByteFile where
  content := f.content
  pos := f.content.length
  pos_le := Nat.le_refl _

/-- Writing `data` at the pointer, or at the end of the file. Nothing happens without data. -/
def write (f : ByteFile) (atEnd : Bool) (data : List UInt8) : ByteFile :=
  if data = [] then f else (if atEnd then f.toEnd else f).put data

def rest (f : ByteFile) : List UInt8 :=
  f.content.drop f.pos

/-- The pointer moved on by `n` bytes, to the end of the file at most. -/
def advance (f : ByteFile) (n : ℕ) : ByteFile where
  content := f.content
  pos := min (f.pos + n) f.content.length
  pos_le := Nat.min_le_right _ _

theorem put_put : (f.put a).put b = f.put (a ++ b) := by
  have hle := f.pos_le
  have htake : (f.content.take f.pos).length = f.pos := by
    rw [List.length_take, Nat.min_eq_left hle]
  apply ByteFile.ext
  · change List.take (f.pos + a.length) (f.content.take f.pos ++ a ++ _) ++ b ++
      List.drop (f.pos + a.length + b.length) (f.content.take f.pos ++ a ++ _) =
      f.content.take f.pos ++ (a ++ b) ++ f.content.drop (f.pos + (a ++ b).length)
    have hlen : (f.content.take f.pos ++ a).length = f.pos + a.length := by
      rw [List.length_append, htake]
    rw [← hlen, List.take_left, ← List.drop_drop, List.drop_left, List.drop_drop, hlen,
      List.length_append, List.append_assoc (f.content.take f.pos) a b, Nat.add_assoc]
  · change f.pos + a.length + b.length = f.pos + (a ++ b).length
    rw [List.length_append, Nat.add_assoc]

theorem toEnd_put_toEnd : ((f.toEnd).put a).toEnd = (f.toEnd).put a := by
  apply ByteFile.ext
  · rfl
  · change (f.content.take f.content.length ++ a ++
      f.content.drop (f.content.length + a.length)).length = f.content.length + a.length
    rw [List.take_length, List.drop_eq_nil_of_le (Nat.le_add_right _ _), List.append_nil,
      List.length_append]

@[simp] theorem write_nil : f.write atEnd [] = f :=
  if_pos rfl

theorem write_write : (f.write atEnd a).write atEnd b = f.write atEnd (a ++ b) := by
  by_cases ha : a = []
  · rw [ha, write_nil, List.nil_append]
  · by_cases hb : b = []
    · rw [hb, write_nil, List.append_nil]
    · have hab : a ++ b ≠ [] := fun h => ha (List.append_eq_nil_iff.mp h).1
      unfold write
      rw [if_neg ha, if_neg hb, if_neg hab]
      cases atEnd with
      | false => exact put_put
      | true =>
        change ((f.toEnd.put a).toEnd).put b = f.toEnd.put (a ++ b)
        rw [toEnd_put_toEnd]
        exact put_put

theorem pos_write (h : atEnd = false) : (f.write atEnd data).pos = f.pos + data.length := by
  unfold write
  split
  · rename_i hnil
    rw [hnil, List.length_nil, Nat.add_zero]
  · rw [h]
    rfl

theorem pos_write_atEnd (h : data ≠ []) :
    (f.write true data).pos = f.content.length + data.length := by
  unfold write
  rw [if_neg h]
  rfl

/-! ### Reading on -/

theorem length_rest : f.rest.length = f.content.length - f.pos :=
  List.length_drop

theorem rest_advance : (f.advance n).rest = f.rest.drop n := by
  unfold rest advance
  rw [List.drop_drop]
  dsimp only
  rcases Nat.le_total (f.pos + n) f.content.length with hle | hge
  · rw [Nat.min_eq_left hle]
  · rw [Nat.min_eq_right hge, List.drop_length, List.drop_eq_nil_of_le hge]

theorem pos_advance (h : n ≤ f.rest.length) : (f.advance n).pos = f.pos + n := by
  have hle := f.pos_le
  rw [length_rest] at h
  exact Nat.min_eq_left (by omega)

@[simp] theorem advance_zero : f.advance 0 = f :=
  ext rfl (Nat.min_eq_left f.pos_le)

theorem advance_advance {m : ℕ} (h : n ≤ f.rest.length) :
    (f.advance n).advance m = f.advance (n + m) := by
  apply ext
  · rfl
  · change min ((f.advance n).pos + m) f.content.length = min (f.pos + (n + m)) f.content.length
    rw [pos_advance h, Nat.add_assoc]

end ByteFile
