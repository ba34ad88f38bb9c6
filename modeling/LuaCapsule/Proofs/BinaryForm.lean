import LuaCapsule.Lua.BinaryForm

/-! The binary form of a function determines the function: what a writer leaves, the reader of
the same kind of thing takes up whole, whatever follows. Functions inside functions go by
induction on the outer one; a form is always longer than those inside it, so that the bound on
nesting is never met. -/

namespace LuaCapsule.Lua

namespace BinaryForm

variable {α β : Type} {x : α} {y : β} {r : Reader α} {w w' : List UInt8}

/-- A reader takes up just some bytes, and makes a thing of them. -/
def Reads (r : Reader α) (w : List UInt8) (x : α) : Prop :=
  ∀ rest, r.run (w ++ rest) = .ok (x, rest)

theorem reads_pure (x : α) : Reads (pure x) [] x := fun _ => rfl

theorem Reads.bind {f : α → Reader β} (h : Reads r w x) (h' : Reads (f x) w' y) :
    Reads (r >>= f) (w ++ w') y := by
  intro rest
  rw [StateT.run_bind, List.append_assoc, h (w' ++ rest)]
  exact h' rest

theorem Reads.last {f : α → Reader β} (h : Reads r w x) (h' : f x = pure y) : Reads (r >>= f) w y := by
  have nothing : Reads (f x) [] y := h' ▸ reads_pure y
  have both := h.bind nothing
  rwa [List.append_nil] at both

/-! ### Parts -/

theorem reads_byte (b : UInt8) : Reads readByte [b] b := fun _ => rfl

theorem reads_bytes (w : List UInt8) : Reads (readBytes w.length) w w := by
  intro rest
  have taken : (w ++ rest).take w.length = w := List.take_left
  have dropped : (w ++ rest).drop w.length = rest := List.drop_left
  simp only [readBytes, StateT.run_bind, StateT.run_get]
  change (if ((w ++ rest).take w.length).length < w.length then _ else _ : Reader _).run _ = _
  rw [taken, dropped, if_neg (Nat.lt_irrefl _)]
  rfl

theorem reads_count (n : Nat) : Reads readCount (count n) n := countFrom_count n

theorem reads_number (n x : Nat) : Reads (readNumber n) (lowBytes n x) (x % Nat.pow 256 n) := by
  have bytes := reads_bytes (lowBytes n x)
  rw [length_lowBytes] at bytes
  rw [← fromLow_lowBytes]
  exact bytes.last rfl

theorem reads_text (b : Option Bytes) : Reads readText (text b) b := by
  cases b with
  | none => exact (reads_count 0).last rfl
  | some b =>
    refine (reads_count (b.size + 1)).bind ?_
    exact (reads_bytes b.data.toList).last rfl

theorem reads_flag (b : Bool) : Reads readFlag (flag b) b := by
  cases b <;> exact (reads_byte _).last rfl

/-! ### Lists -/

theorem reads_times {write : α → List UInt8} {xs : List α} (h : ∀ x ∈ xs, Reads r (write x) x) :
    Reads (readTimes r xs.length) (xs.flatMap write) xs := by
  induction xs with
  | nil => exact reads_pure []
  | cons x xs ih =>
    have first := h x (List.mem_cons_self ..)
    have others := ih fun x' mem => h x' (List.mem_cons_of_mem _ mem)
    rw [List.flatMap_cons]
    exact first.bind (others.last rfl)

theorem reads_list {write : α → List UInt8} (h : ∀ x, Reads r (write x) x) (xs : List α) :
    Reads (readList r) (list write xs) xs :=
  (reads_count xs.length).bind (reads_times fun x _ => h x)

/-! ### The parts of a function -/

theorem reads_instr (i : Instr) : Reads readInstr (lowBytes 4 i.bits.toNat) i := by
  have same : i.bits.toNat % Nat.pow 256 4 = i.bits.toNat := Nat.mod_eq_of_lt i.bits.toNat_lt
  have number := reads_number 4 i.bits.toNat
  rw [same] at number
  exact number.last (by simp)

theorem reads_word (b : UInt64) : Reads (readNumber 8) (lowBytes 8 b.toNat) b.toNat := by
  have same : b.toNat % Nat.pow 256 8 = b.toNat := Nat.mod_eq_of_lt b.toNat_lt
  have number := reads_number 8 b.toNat
  rwa [same] at number

theorem reads_string (s : Bytes) : Reads readConstant.readString (text (some s)) (.str s) :=
  (reads_text (some s)).last rfl

theorem reads_constant (c : Constant) : Reads readConstant (constant c) c := by
  cases c with
  | nil => exact (reads_byte 0x00).last rfl
  | bool b => cases b <;> exact (reads_byte _).last rfl
  | int i =>
    refine (reads_byte 0x03).bind ?_
    exact (reads_word i.toUInt64).last (by simp)
  | float x =>
    refine (reads_byte 0x13).bind ?_
    exact (reads_word x.bits).last (by simp)
  | str s =>
    rw [constant]
    split
    · refine (reads_byte 0x04).bind ?_
      exact reads_string s
    · refine (reads_byte 0x14).bind ?_
      exact reads_string s

theorem reads_capture (c : CaptureSource) : Reads readCapture (capture c) c :=
  (reads_flag c.inRegister).bind ((reads_byte c.index).bind ((reads_byte c.kind).last rfl))

theorem reads_mark (m : Nat × Nat) : Reads readMark (mark m) m :=
  (reads_count m.1).bind ((reads_count m.2).last rfl)

theorem reads_localVariable (v : LocalVariable) : Reads readLocalVariable (localVariable v) v := by
  unfold localVariable
  rw [List.append_assoc]
  exact (reads_text v.name).bind ((reads_count v.start).bind ((reads_count v.stop).last rfl))

/-! ### Functions -/

mutual

/-- A function is read back when nesting may be as deep as its form is long. -/
theorem reads_function : ∀ (p : Prototype) (depth : Nat), (function p).length ≤ depth →
    Reads (readFunction depth) (function p) p
  | ⟨line, lastLine, parameters, isVariadic, registers, code, constants, captures, functions,
      lineSteps, lineMarks, locals, captureNames⟩, depth => by
    intro deep
    rw [function] at deep ⊢
    have counted : 0 < (count line).length := by simp [count]
    obtain ⟨depth, rfl⟩ : ∃ d, depth = d + 1 := ⟨depth - 1, by
      simp only [head, List.length_append] at deep
      omega⟩
    have inner := reads_innerFunctions functions depth (by
      simp only [head, List.length_append] at deep
      omega)
    simp only [head, tail, List.append_assoc]
    refine (reads_count line).bind ((reads_count lastLine).bind ((reads_byte parameters).bind
      ((reads_flag isVariadic).bind ((reads_byte registers).bind ?_))))
    refine (reads_list reads_instr code.toList).bind ((reads_list reads_constant constants.toList).bind
      ((reads_list reads_capture captures.toList).bind ?_))
    rw [← List.append_assoc (count functions.length)]
    refine ((reads_count functions.length).bind inner).bind ?_
    refine (reads_count lineSteps.size).bind ((reads_bytes lineSteps.data.toList).bind ?_)
    exact (reads_list reads_mark lineMarks).bind ((reads_list reads_localVariable locals).bind
      ((reads_list reads_text captureNames).last rfl))

theorem reads_innerFunctions : ∀ (ps : List Prototype) (depth : Nat), (innerFunctions ps).length ≤ depth →
    Reads (readTimes (do let _ ← readText; readFunction depth) ps.length) (innerFunctions ps) ps
  | [], _ => fun _ => reads_pure []
  | p :: ps, depth => by
    intro deep
    rw [innerFunctions] at deep ⊢
    simp only [List.length_append] at deep
    have first := reads_function p depth (by omega)
    have others := reads_innerFunctions ps depth (by omega)
    exact ((reads_text none).bind first).bind (others.last rfl)

end

theorem reads_header (parts : List (List UInt8 × String)) :
    Reads (readHeader parts) (parts.flatMap (·.1)) () := by
  induction parts with
  | nil => exact reads_pure ()
  | cons part parts ih =>
    obtain ⟨part, message⟩ := part
    rw [List.flatMap_cons]
    refine (reads_bytes part).bind ?_
    rw [beq_self_eq_true]
    exact ih

end BinaryForm

open BinaryForm in
/-- Every function is read back from its binary form. -/
theorem Code.undump_dump (c : Code) : Code.undump c.dump = .ok c := by
  obtain ⟨chunk, p⟩ := c
  obtain ⟨w, form⟩ : ∃ w, w = headerBytes ++ [p.captures.size.toUInt8] ++ text chunk ++ function p :=
    ⟨_, rfl⟩
  have long : (function p).length ≤ w.length := by
    simp only [form, List.length_append]
    omega
  have bytes : (Code.dump ⟨chunk, p⟩).data.toList = w := by
    rw [form]
    rfl
  have body : Reads (do let chunk ← readText; return ⟨chunk, ← readFunction w.length⟩)
      (text chunk ++ function p) (⟨chunk, p⟩ : Code) :=
    (reads_text chunk).bind ((reads_function p w.length long).last rfl)
  have whole : Reads
      (do readHeader header; let _ ← readByte; let chunk ← readText; return ⟨chunk, ← readFunction w.length⟩)
      (headerBytes ++ ([p.captures.size.toUInt8] ++ (text chunk ++ function p))) (⟨chunk, p⟩ : Code) :=
    (reads_header header).bind ((reads_byte p.captures.size.toUInt8).bind body)
  have result := whole []
  rw [← List.append_assoc, ← List.append_assoc, List.append_nil, ← form] at result
  unfold Code.undump
  rw [bytes]
  exact congrArg (·.map Prod.fst) result

end LuaCapsule.Lua
