import SysProg.Mdriver.Main
import SysProg.Mdriver.Reading

/-!
# Reading trace files back

The requests of a trace are read from any layout of their text, and a trace that was
accepted is read again from the text that is written for it.  So what the driver records
of some files depends on their requests alone.
-/

namespace SysProg.Mdriver

open Logic Malloc

/-! ## Layouts -/

/-- White space between two words. -/
structure Gap where
  text : List UInt8
  white : ∀ c ∈ text, whiteSpace c = true
  ne_nil : text ≠ []

/-- A number in decimal digits, perhaps with leading zeros. -/
structure Figures where
  text : List UInt8
  digits : ∀ c ∈ text, decimal.isDigit c = true
  ne_nil : text ≠ []

/-- The letters of a word behind its first one. -/
structure Tail where
  text : List UInt8
  visible : ∀ c ∈ text, whiteSpace c = false
  short : text.length + 1 < MAXLINE

/-- The numbers of a request. -/
inductive Numbers where
  | alloc (index : Figures) (gap : Gap) (size : Figures)
  | realloc (index : Figures) (gap : Gap) (size : Figures)
  | free (index : Figures)

/-- A request as it may stand in a trace file. -/
structure Entry where
  before : Gap
  tail : Tail
  gap : Gap
  numbers : Numbers

namespace Figures

def number (f : Figures) : Nat := decimal.value f.text

/-- The digits of a number. -/
def ofNat (n : Nat) : Figures where
  text := decimal.numeral n
  digits := decimal.numeral_digits n
  ne_nil := decimal.numeral_ne_nil n

@[simp] theorem number_ofNat (n : Nat) : (ofNat n).number = n := decimal.value_numeral n

end Figures

namespace Numbers

/-- The first letter of the word in front. -/
def letter : Numbers → UInt8
  | alloc .. => 97
  | realloc .. => 114
  | free .. => 102

def text : Numbers → List UInt8
  | alloc index gap size => index.text ++ (gap.text ++ size.text)
  | realloc index gap size => index.text ++ (gap.text ++ size.text)
  | free index => index.text

def op : Numbers → Traceop
  | alloc index _ size => .alloc (strtoul32 index.number) (toInt (strtoul32 size.number))
  | realloc index _ size => .realloc (strtoul32 index.number) (toInt (strtoul32 size.number))
  | free index => .free (strtoul32 index.number)

end Numbers

namespace Entry

def text (e : Entry) : List UInt8 :=
  e.before.text ++ e.numbers.letter :: (e.tail.text ++ (e.gap.text ++ e.numbers.text))

def op (e : Entry) : Traceop := e.numbers.op

end Entry

/-- Nothing or white space follows. -/
def Behind (rest : List UInt8) : Prop := ∀ c ∈ rest.head?, whiteSpace c = true

/-! ## Scanning -/

section Scanning

variable {path text rest white : List UInt8} {room : Nat} {r : Reading} {z : Int}
  {entries : List Entry}

theorem Behind.nil : Behind [] := fun _ member => absurd member (Option.not_mem_none _)

theorem Behind.append (blank : ∀ c ∈ white, whiteSpace c = true) (behind : Behind rest) :
    Behind (white ++ rest) := by
  cases white with
  | nil => exact behind
  | cons c white =>
      rintro d ⟨⟩
      exact blank c List.mem_cons_self

theorem Gap.behind (gap : Gap) (rest : List UInt8) : Behind (gap.text ++ rest) := by
  obtain ⟨c, white, first⟩ := List.exists_cons_of_ne_nil gap.ne_nil
  rw [first]
  rintro d ⟨⟩
  exact gap.white c (first ▸ List.mem_cons_self)

theorem not_digit_of_white {c : UInt8} (blank : whiteSpace c = true) :
    decimal.isDigit c = false := by
  by_contra digit
  have plain := plain_of_digit (hexDigit_of_decimal (Bool.eq_true_of_not_eq_false digit))
  rw [plain.1] at blank
  cases blank

theorem Behind.ends (behind : Behind rest) : decimal.Ends rest :=
  fun c member => not_digit_of_white (behind c member)

/-- A field is the integer that is scanned. -/
theorem scanField_of_scanInteger (read : scanInteger text = some (z, rest)) :
    scanField text = (some z, rest) := by
  unfold scanInteger at read
  unfold scanField
  generalize scanSign (text.dropWhile whiteSpace) = sign at read ⊢
  obtain ⟨negative, text⟩ := sign
  obtain ⟨⟨n, rest'⟩, scanned, same⟩ := Option.map_eq_some_iff.mp read
  cases same
  dsimp only
  rw [scanned]

theorem scanField_white (blank : ∀ c ∈ white, whiteSpace c = true) :
    scanField (white ++ text) = scanField text := by
  unfold scanField
  rw [List.dropWhile_append_of_pos blank]

theorem Gap.scanField (gap : Gap) : scanField (gap.text ++ text) = Mdriver.scanField text :=
  scanField_white gap.white

theorem Figures.scanField (f : Figures) (behind : Behind rest) :
    scanField (f.text ++ rest) = (some (f.number : Int), rest) :=
  scanField_of_scanInteger (scanInteger_block f.digits f.ne_nil behind.ends)

/-- A word is read up to the white space behind it. -/
theorem scanWord_tail {c : UInt8} (gap : Gap) (tail : Tail) (first : whiteSpace c = false)
    (behind : Behind rest) :
    scanWord (gap.text ++ c :: (tail.text ++ rest)) = some (c, tail.text, rest) := by
  have visible : ∀ d ∈ tail.text, (!whiteSpace d) = true := by
    intro d member
    rw [tail.visible d member]
    rfl
  have stop : rest.takeWhile (fun d => !whiteSpace d) = [] ∧
      rest.dropWhile (fun d => !whiteSpace d) = rest := by
    cases rest with
    | nil => exact ⟨rfl, rfl⟩
    | cons d rest =>
        have blank := behind d rfl
        exact ⟨List.takeWhile_cons_of_neg (by simp [blank]),
          List.dropWhile_cons_of_neg (by simp [blank])⟩
  unfold scanWord
  rw [List.dropWhile_append_of_pos gap.white, List.dropWhile_cons_of_neg (by simp [first])]
  dsimp only
  rw [List.span_eq_takeWhile_dropWhile, List.takeWhile_append_of_pos visible,
    List.dropWhile_append_of_pos visible, stop.1, stop.2, List.append_nil]

/-- Two numbers are scanned. -/
theorem scanPair_figures (gap gap' : Gap) (index size : Figures) (behind : Behind rest) :
    scanPair (gap.text ++ (index.text ++ (gap'.text ++ size.text)) ++ rest) r =
      ({ r with index := strtoul32 index.number, size := some (strtoul32 size.number) },
        rest) := by
  have first : scanField (gap.text ++ (index.text ++ (gap'.text ++ size.text)) ++ rest) =
      (some (index.number : Int), gap'.text ++ (size.text ++ rest)) := by
    rw [List.append_assoc, gap.scanField, List.append_assoc, List.append_assoc]
    exact index.scanField (gap'.behind _)
  have second : scanField (gap'.text ++ (size.text ++ rest)) = (some (size.number : Int), rest) := by
    rw [gap'.scanField]
    exact size.scanField behind
  rw [scanPair, first]
  dsimp only
  rw [second]

theorem scanLetter_behind (behind : Behind rest) : scanLetter 100 rest = rest := by
  cases rest with
  | nil => rfl
  | cons c rest =>
      have blank := behind c rfl
      have other : c ≠ 100 := by
        rintro rfl
        cases blank
      rw [scanLetter, if_neg other]

theorem scanIndex_figures (gap : Gap) (index : Figures) (behind : Behind rest) :
    scanIndex (gap.text ++ index.text ++ rest) r =
      ({ r with index := strtoul32 index.number }, rest) := by
  have first : scanField (gap.text ++ index.text ++ rest) =
      (some (index.number : Int), rest) := by
    rw [List.append_assoc, gap.scanField]
    exact index.scanField behind
  rw [scanIndex, first]
  dsimp only
  rw [scanLetter_behind behind]

/-- What is left of the requests is read next. -/
structure Reads (path : List UInt8) (room : Nat) (text : List UInt8) (r : Reading)
    (ops : List Traceop) (r' : Reading) : Prop where
  read : readLoop path room text r = .ok r'
  ops_eq : r'.ops = r.ops ++ ops
  top : r'.maxIndex = ops.foldl Traceop.raise r.maxIndex

/-- A request is read from its text. -/
theorem readOp_numbers (gap : Gap) (numbers : Numbers) (behind : Behind rest)
    (fits : r.ops.length < room) :
    ∃ r', readOp path room numbers.letter (gap.text ++ numbers.text ++ rest) r = .ok (r', rest) ∧
      r'.ops = r.ops ++ [numbers.op] ∧ r'.maxIndex = numbers.op.raise r.maxIndex := by
  have sized (make : Nat → Int → Traceop) (index : Figures) (gap' : Gap) (size : Figures) :
      readSized make room (gap.text ++ (index.text ++ (gap'.text ++ size.text)) ++ rest) r =
        .ok (⟨strtoul32 index.number, some (strtoul32 size.number),
          max r.maxIndex (strtoul32 index.number),
          r.ops ++ [make (strtoul32 index.number) (toInt (strtoul32 size.number))]⟩, rest) := by
    rw [readSized, scanPair_figures gap gap' index size behind]
    dsimp only
    rw [if_pos fits, max_def_lt]
  cases numbers with
  | alloc index gap' size => exact ⟨_, sized .alloc index gap' size, rfl, rfl⟩
  | realloc index gap' size => exact ⟨_, sized .realloc index gap' size, rfl, rfl⟩
  | free index =>
      have freed : readFree room (gap.text ++ index.text ++ rest) r =
          .ok (⟨strtoul32 index.number, r.size, r.maxIndex,
            r.ops ++ [.free (strtoul32 index.number)]⟩, rest) := by
        rw [readFree, scanIndex_figures gap index behind]
        dsimp only
        rw [if_pos fits]
      exact ⟨_, freed, rfl, rfl⟩

theorem Numbers.letter_visible (numbers : Numbers) : whiteSpace numbers.letter = false := by
  cases numbers with
  | alloc => rfl
  | realloc => rfl
  | free => rfl

theorem behind_entries (entries : List Entry) (blank : ∀ c ∈ white, whiteSpace c = true) :
    Behind (entries.flatMap Entry.text ++ white) := by
  cases entries with
  | nil =>
      have alone := Behind.append blank .nil
      rwa [List.append_nil] at alone
  | cons e entries =>
      rw [List.flatMap_cons, Entry.text, List.append_assoc, List.append_assoc]
      exact e.before.behind _

/-- The requests are read from their text. -/
theorem reads_entries (blank : ∀ c ∈ white, whiteSpace c = true)
    (fits : r.ops.length + entries.length ≤ room) :
    ∃ r', Reads path room (entries.flatMap Entry.text ++ white) r (entries.map Entry.op) r' := by
  induction entries generalizing r with
  | nil =>
      have none : scanWord ([] ++ white) = none := by
        unfold scanWord
        rw [List.nil_append, List.dropWhile_eq_nil_iff.mpr blank]
      refine ⟨r, ?_, (List.append_nil _).symm, rfl⟩
      rw [readLoop_eq, List.flatMap_nil, none]
  | cons e entries ih =>
      rw [List.length_cons] at fits
      have behind := behind_entries entries blank
      obtain ⟨r1, once, ops_eq, top⟩ :=
        @readOp_numbers path _ room r e.gap e.numbers behind (by omega)
      have fits1 : r1.ops.length + entries.length ≤ room := by
        rw [ops_eq, List.length_append, List.length_singleton]
        omega
      obtain ⟨r', later⟩ := @ih r1 fits1
      have word : scanWord ((e :: entries).flatMap Entry.text ++ white) =
          some (e.numbers.letter, e.tail.text,
            e.gap.text ++ e.numbers.text ++ (entries.flatMap Entry.text ++ white)) := by
        have split : (e :: entries).flatMap Entry.text ++ white =
            e.before.text ++ e.numbers.letter :: (e.tail.text ++
              (e.gap.text ++ e.numbers.text ++ (entries.flatMap Entry.text ++ white))) := by
          simp only [List.flatMap_cons, Entry.text, List.append_assoc, List.cons_append]
        rw [split]
        refine scanWord_tail e.before e.tail e.numbers.letter_visible ?_
        rw [List.append_assoc]
        exact e.gap.behind _
      refine ⟨r', ?_, ?_, ?_⟩
      · rw [readLoop_eq, word]
        dsimp only
        rw [List.length_cons, if_neg (Nat.not_le.mpr e.tail.short), once]
        exact later.read
      · rw [later.ops_eq, ops_eq, List.append_assoc]
        rfl
      · rw [later.top, top]
        rfl

end Scanning

/-! ## Files -/

/-- A number of the header. -/
structure Field where
  negative : Bool
  figures : Figures

namespace Field

def text (f : Field) : List UInt8 :=
  if f.negative then 45 :: f.figures.text else f.figures.text

def value (f : Field) : Int := signed f.negative f.figures.number

end Field

/-- A trace file. -/
structure Layout where
  before : List UInt8
  suggHeapsize : Field
  gap : Gap
  numIds : Field
  gap' : Gap
  numOps : Field
  gap'' : Gap
  weight : Field
  entries : List Entry
  behind : List UInt8
  before_white : ∀ c ∈ before, whiteSpace c = true
  behind_white : ∀ c ∈ behind, whiteSpace c = true

namespace Layout

def text (l : Layout) : List UInt8 :=
  l.before ++ (l.suggHeapsize.text ++ (l.gap.text ++ (l.numIds.text ++ (l.gap'.text ++
    (l.numOps.text ++ (l.gap''.text ++ (l.weight.text ++
      (l.entries.flatMap Entry.text ++ l.behind))))))))

def trace (l : Layout) : Trace where
  suggHeapsize := some (strtol32 l.suggHeapsize.value)
  numIds := strtol32 l.numIds.value
  numOps := strtol32 l.numOps.value
  weight := some (strtol32 l.weight.value)
  ops := l.entries.map Entry.op

end Layout

section Files

variable {path file f1 f2 f3 rest white : List UInt8} {sugg weight : Option Int} {ids ops : Int}
  {entries : List Entry} {t : Trace} {n : Nat} {z : Int} {op : Traceop}

theorem roomFor_natCast (small : n * sizeofTraceop < 2 ^ 32) : roomFor n sizeofTraceop = n := by
  have whole : sizeT ((n : Int) * sizeofTraceop) = n * sizeofTraceop := by
    have cast : ((n : Int) * sizeofTraceop) = ((n * sizeofTraceop : Nat) : Int) :=
      (Int.natCast_mul _ _).symm
    rw [cast]
    unfold sizeT
    omega
  rw [roomFor, whole]
  exact Nat.mul_div_cancel n (by decide)

/-- A file is read if its parts make up a well-formed trace. -/
theorem readTrace_parts (first : scanField file = (sugg, f1))
    (second : scanField f1 = (some ids, f2)) (third : scanField f2 = (some ops, f3))
    (fourth : scanField f3 = (weight, entries.flatMap Entry.text ++ white))
    (blank : ∀ c ∈ white, whiteSpace c = true)
    (same : t = ⟨sugg.map strtol32, strtol32 ids, strtol32 ops, weight.map strtol32,
      entries.map Entry.op⟩)
    (wellFormed : t.WellFormed) : readTrace path file = .ok t := by
  have count : strtol32 ops = entries.length := by
    have count := wellFormed.count
    rw [same, List.length_map] at count
    exact count
  have room : roomFor (strtol32 ops) sizeofTraceop = entries.length := by
    have room := wellFormed.room
    rw [same, List.length_map] at room
    rw [count, roomFor_natCast room]
  obtain ⟨r, reads⟩ := @reads_entries path white (roomFor (strtol32 ops) sizeofTraceop)
    ⟨0, none, 0, []⟩ entries blank (by rw [room]; exact Nat.le_of_eq (Nat.zero_add _))
  have made : r.ops = entries.map Entry.op := reads.ops_eq
  have top : r.maxIndex = sizeT (t.numIds - 1) := reads.top.trans (same ▸ wellFormed.top)
  unfold readTrace
  rw [first]
  dsimp only
  rw [second]
  dsimp only
  rw [third]
  dsimp only
  rw [fourth]
  dsimp only
  rw [reads.read]
  dsimp only
  rw [made, ← same, checkCounts, if_neg wellFormed.idsLow, if_neg (not_not.mpr top), if_neg]
  rw [not_not, wellFormed.count]
  have small := wellFormed.room
  unfold sizeofTraceop at small
  unfold sizeT
  omega

/-! ## Layouts of a file -/

theorem Field.scanField (f : Field) (behind : Behind rest) :
    scanField (f.text ++ rest) = (some f.value, rest) := by
  refine scanField_of_scanInteger ?_
  have block := scanInteger_block f.figures.digits f.figures.ne_nil behind.ends
  unfold Field.text Field.value
  cases f.negative with
  | false => exact block
  | true =>
      have scanned := Alphabet.scan_block f.figures.digits f.figures.ne_nil behind.ends
      rw [if_pos rfl, List.cons_append, scanInteger, List.dropWhile_cons_of_neg (by decide),
        scanSign, if_pos rfl]
      dsimp only
      rw [scanned]
      rfl

/-- A file is read, and as the trace that is laid out, exactly if this trace is well
formed. -/
theorem readTrace_layout (l : Layout) :
    readTrace path l.text = .ok l.trace ↔ l.trace.WellFormed := by
  refine ⟨readTrace_wellFormed, fun wellFormed => ?_⟩
  have first := l.suggHeapsize.scanField (l.gap.behind (l.numIds.text ++ (l.gap'.text ++
    (l.numOps.text ++ (l.gap''.text ++ (l.weight.text ++
      (l.entries.flatMap Entry.text ++ l.behind)))))))
  have second := l.numIds.scanField (l.gap'.behind (l.numOps.text ++ (l.gap''.text ++
    (l.weight.text ++ (l.entries.flatMap Entry.text ++ l.behind)))))
  have third := l.numOps.scanField (l.gap''.behind (l.weight.text ++
    (l.entries.flatMap Entry.text ++ l.behind)))
  have fourth := l.weight.scanField (behind_entries l.entries l.behind_white)
  rw [← l.gap.scanField] at second
  rw [← l.gap'.scanField] at third
  rw [← l.gap''.scanField] at fourth
  have start : scanField l.text = _ := scanField_white l.before_white
  exact readTrace_parts (start.trans first) second third fourth l.behind_white rfl wellFormed

/-! ## The text of a trace -/

theorem lineEnd_white : ∀ c ∈ [(10 : UInt8)], whiteSpace c = true := List.all_eq_true.mp rfl

theorem lineEnd_ne_nil : [(10 : UInt8)] ≠ [] := List.cons_ne_nil _ _

def lineEnd : Gap := ⟨[10], lineEnd_white, lineEnd_ne_nil⟩

theorem blank_white : ∀ c ∈ [(32 : UInt8)], whiteSpace c = true := List.all_eq_true.mp rfl

theorem blank_ne_nil : [(32 : UInt8)] ≠ [] := List.cons_ne_nil _ _

def blank : Gap := ⟨[32], blank_white, blank_ne_nil⟩

theorem nil_visible : ∀ c ∈ ([] : List UInt8), whiteSpace c = false :=
  fun _ member => absurd member List.not_mem_nil

theorem nil_short : ([] : List UInt8).length + 1 < MAXLINE := by decide

/-- The word is its first letter. -/
def noTail : Tail := ⟨[], nil_visible, nil_short⟩

/-- A request on a line of its own. -/
def Traceop.entry : Traceop → Entry
  | .alloc index size =>
      ⟨lineEnd, noTail, blank, .alloc (.ofNat index) blank (.ofNat (sizeT size))⟩
  | .realloc index size =>
      ⟨lineEnd, noTail, blank, .realloc (.ofNat index) blank (.ofNat (sizeT size))⟩
  | .free index => ⟨lineEnd, noTail, blank, .free (.ofNat index)⟩

/-- A number of the header; a minus alone is the text of a field that was not set. -/
def fieldText : Option Int → List UInt8
  | none => [45]
  | some z => integerNumeral z

/-- The text of a trace. -/
def Trace.text (t : Trace) : List UInt8 :=
  fieldText t.suggHeapsize ++ 10 :: (integerNumeral t.numIds ++ 10 :: (integerNumeral t.numOps ++
    10 :: (fieldText t.weight ++ ((t.ops.map Traceop.entry).flatMap Entry.text ++ [10]))))

/-- The index that a request assigns a block to. -/
def Traceop.assigned : Traceop → Option Nat
  | .alloc index _ => some index
  | .realloc index _ => some index
  | .free _ => none

theorem strtoul32_natCast (small : n < 2 ^ 32) : strtoul32 n = n := by
  unfold strtoul32
  rw [if_neg (by omega)]
  omega

theorem toInt_sizeT (low : -2 ^ 31 ≤ z) (high : z < 2 ^ 31) : toInt (sizeT z) = z := by
  unfold toInt sizeT
  split
  all_goals omega

theorem strtol32_eq (range : IntRange z) : strtol32 z = z := by
  unfold IntRange at range
  unfold strtol32
  omega

theorem Traceop.Storable.entry_op (storable : op.Storable) : op.entry.op = op := by
  have short : ∀ size, sizeT size < 2 ^ 32 := by
    intro size
    unfold sizeT
    omega
  cases op with
  | alloc index size =>
      obtain ⟨narrow, low, high⟩ := storable
      rw [Traceop.entry, Entry.op, Numbers.op, Figures.number_ofNat, Figures.number_ofNat,
        strtoul32_natCast narrow, strtoul32_natCast (short size), toInt_sizeT low high]
  | realloc index size =>
      obtain ⟨narrow, low, high⟩ := storable
      rw [Traceop.entry, Entry.op, Numbers.op, Figures.number_ofNat, Figures.number_ofNat,
        strtoul32_natCast narrow, strtoul32_natCast (short size), toInt_sizeT low high]
  | free index =>
      rw [Traceop.entry, Entry.op, Numbers.op, Figures.number_ofNat, strtoul32_natCast storable]

theorem scanField_fieldText (field : Option Int) (behind : Behind rest) :
    scanField (fieldText field ++ rest) = (field, rest) := by
  cases field with
  | none =>
      unfold scanField
      rw [fieldText, List.singleton_append, List.dropWhile_cons_of_neg (by decide), scanSign,
        if_pos rfl]
      dsimp only
      rw [Alphabet.scan_ends behind.ends]
  | some z => exact scanField_of_scanInteger (scanInteger_numeral z behind.ends)

theorem scanField_line (z : Int) (behind : Behind rest) :
    scanField (10 :: (integerNumeral z ++ rest)) = (some z, rest) := by
  have skipped := @Gap.scanField (integerNumeral z ++ rest) lineEnd
  exact skipped.trans (scanField_of_scanInteger (scanInteger_numeral z behind.ends))

/-- A well-formed trace is read from its text. -/
theorem Trace.WellFormed.readTrace_text (wellFormed : t.WellFormed) :
    readTrace path t.text = .ok t := by
  have entries : (t.ops.map Traceop.entry).map Entry.op = t.ops := by
    rw [List.map_map]
    refine (List.map_congr_left fun op member => ?_).trans (List.map_id _)
    exact (wellFormed.ops op member).entry_op
  have stored : ∀ field : Option Int, (∀ z ∈ field, IntRange z) → field.map strtol32 = field := by
    intro field range
    cases field with
    | none => rfl
    | some z => exact congrArg some (strtol32_eq (range z rfl))
  have numOps : IntRange t.numOps := by
    have count := wellFormed.count
    have room := wellFormed.room
    unfold sizeofTraceop at room
    unfold IntRange
    omega
  have last := behind_entries (t.ops.map Traceop.entry) lineEnd_white
  refine readTrace_parts (scanField_fieldText _ (lineEnd.behind _))
    (scanField_line _ (lineEnd.behind _)) (scanField_line _ (lineEnd.behind _))
    ((@Gap.scanField _ lineEnd).trans (scanField_fieldText _ last)) lineEnd_white ?_ wellFormed
  rw [entries, stored _ wellFormed.sugg, stored _ wellFormed.weight, strtol32_eq wellFormed.ids,
    strtol32_eq numOps]

theorem le_topIndex {ops : List Traceop} {i : Nat} (member : op ∈ ops) (assigned : i ∈ op.assigned) :
    i ≤ topIndex ops := by
  induction ops using List.reverseRecOn with
  | nil => exact absurd member List.not_mem_nil
  | append_singleton ops last ih =>
      rw [topIndex_append]
      rcases List.mem_append.mp member with old | new
      · have before := ih old
        cases last with
        | alloc index size => exact before.trans (Nat.le_max_left _ _)
        | realloc index size => exact before.trans (Nat.le_max_left _ _)
        | free index => exact before
      · obtain rfl := List.mem_singleton.mp new
        cases op with
        | alloc index size =>
            cases assigned
            exact Nat.le_max_right _ _
        | realloc index size =>
            cases assigned
            exact Nat.le_max_right _ _
        | free index => cases assigned

/-- The array for the blocks bounds no index that is only freed. -/
def looseFile : List UInt8 := ascii "0 1 2 0\na 0 8\nf 9\n"

/-- Where a conversion fails, a request has the numbers of an earlier one. -/
example : readTrace [] (ascii "- 2 3 1 alloc 0 007 a 1 f 0") =
    .ok ⟨none, 2, 3, some 1, [.alloc 0 7, .alloc 1 7, .free 0]⟩ := rfl

end Files

/-! ## The driver on files -/

/-- The driver runs the traces that are read from the files. -/
theorem runFiles_eq {σ : Type} (pkg : Package σ) {files : List (Nat × List UInt8 × List UInt8)}
    {traces : List (Nat × Trace)}
    (read : List.Forall₂ (fun file trace =>
      readTrace file.2.1 file.2.2 = .ok trace.2 ∧ trace.1 = file.1) files traces) :
    runFiles pkg files = runTraces pkg traces := by
  induction read with
  | nil => rfl
  | @cons file trace files traces first later ih =>
      obtain ⟨calls, path, text⟩ := file
      obtain ⟨calls', trace⟩ := trace
      obtain ⟨here, rfl⟩ := first
      rw [runFiles, here]
      dsimp only
      rw [ih]
      rfl

/-- What `main` records for `mm.c` of trace files in any layout depends on their traces
alone, one file by one. -/
theorem files_stats {lo limit : Nat} (bound : limit < lo + 2 ^ 31) {s : Heap}
    (storage : Storage lo limit s) {files : List (Nat × List UInt8 × Layout)}
    (wellFormed : ∀ file ∈ files, file.2.2.trace.WellFormed)
    (acceptable : ∀ file ∈ files, Acceptable file.2.2.trace) :
    ∃ stats, List.Forall₂ (fun file stat =>
        Fair mm (mmTerms lo limit) file.2.2.trace stat) files stats ∧
      ∀ r : Replay Heap, Storage lo limit r.state → ∃ r',
        runFiles mm (files.map fun file => (file.1, file.2.1, file.2.2.text)) r =
          some (some stats, r') := by
  have read : runFiles mm (files.map fun file => (file.1, file.2.1, file.2.2.text)) =
      runTraces mm (files.map fun file => (file.1, file.2.2.trace)) := by
    refine runFiles_eq mm ?_
    rw [List.forall₂_map_left_iff, List.forall₂_map_right_iff]
    refine List.forall₂_same.mpr fun file member => ?_
    exact ⟨(readTrace_layout file.2.2).mpr (wellFormed file member), rfl⟩
  have requests : ∀ trace ∈ files.map fun file => (file.1, file.2.2.trace),
      Acceptable trace.2 := List.forall_mem_map.mpr acceptable
  obtain ⟨stats, fair, run⟩ := mm_repeats.runTraces_run (mm_promises lo limit) (mm_steady bound)
    ⟨s, storage⟩ requests
  rw [List.forall₂_map_left_iff] at fair
  refine ⟨stats, fair, fun r ready => ?_⟩
  obtain ⟨r', ran, -⟩ := run r ready
  exact ⟨r', read ▸ ran⟩

theorem nil_white : ∀ c ∈ ([] : List UInt8), whiteSpace c = true :=
  fun _ member => absurd member List.not_mem_nil

/-- The growing block in a trace file. -/
def growingLayout : Layout where
  before := []
  suggHeapsize := ⟨false, .ofNat 20000⟩
  gap := lineEnd
  numIds := ⟨false, .ofNat 2⟩
  gap' := lineEnd
  numOps := ⟨false, .ofNat growingTrace.length⟩
  gap'' := lineEnd
  weight := ⟨false, .ofNat 1⟩
  entries := growingTrace.map Traceop.entry
  behind := [10]
  before_white := nil_white
  behind_white := lineEnd_white

theorem growingLayout_wellFormed : growingLayout.trace.WellFormed :=
  @readTrace_wellFormed [] growingLayout.text _ rfl

theorem files_stats_growing :
    ∃ stats, List.Forall₂ (fun (file : Nat × List UInt8 × Layout) stat =>
        Fair mm (mmTerms 4096 (4096 + 2 ^ 20)) file.2.2.trace stat)
        [(3, [], growingLayout)] stats ∧
      ∀ r : Replay Heap, Storage 4096 (4096 + 2 ^ 20) r.state → ∃ r',
        runFiles mm ([(3, [], growingLayout)].map fun file => (file.1, file.2.1, file.2.2.text)) r =
          some (some stats, r') :=
  files_stats (by decide) blank_storage (List.forall_mem_singleton.mpr growingLayout_wellFormed)
    (List.forall_mem_singleton.mpr (by decide))

end SysProg.Mdriver
