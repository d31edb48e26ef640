import Markup.Checked

/-! Source texts, positions in them and the stretches between two positions. -/
namespace Markup

/-- A position in a source text. Lines and columns count from zero. -/
structure Location where
  /-- Bytes before the position. -/
  offset : Nat := 0
  line : UInt32 := 0
  /-- Characters between the start of the line and the position. -/
  col : UInt32 := 0
deriving DecidableEq, Repr, Inhabited

/-- A position of which only the offset is known yet. -/
def Location.ofOffset (offset : Nat) : Location := { offset }

/-- The stretch of a source text from `start` up to `stop`. -/
structure Span where
  start : Location := {}
  stop : Location := {}
deriving DecidableEq, Repr, Inhabited

namespace Span

/-- Length in bytes; zero if the ends are reversed. -/
def length (s : Span) : Nat := s.stop.offset - s.start.offset

def isEmpty (s : Span) : Bool := s.length == 0

end Span

structure Source where
  chars : List Char
deriving DecidableEq, Repr

namespace Source

def ofString (s : String) : Source := ⟨s.toList⟩

def size (src : Source) : Nat := Text.byteLength src.chars

/-- The offsets right behind the newlines among some bytes, of which the first has the offset
`n`. -/
def lineStartsFrom : Nat → List UInt8 → List Nat
  | _, [] => []
  | n, b :: bs =>
    if b = 10 then (n + 1) :: lineStartsFrom (n + 1) bs else lineStartsFrom (n + 1) bs

def lineStarts (src : Source) : Array Nat :=
  (0 :: lineStartsFrom 0 (Text.bytes src.chars)).toArray

/-- Narrow down where the entries that satisfy `p` end, by halves, in at most the given number of
steps. -/
def bisect (p : Nat → Bool) (table : Array Nat) : Nat → Nat → Nat → Nat
  | 0, low, _ => low
  | steps + 1, low, high =>
    if low < high then
      if (table[(low + high) / 2]?).any p then bisect p table steps ((low + high) / 2 + 1) high
      else bisect p table steps low ((low + high) / 2)
    else low

/-- How many entries satisfy `p`, if those that do stand in front. -/
def partitionPoint (p : Nat → Bool) (table : Array Nat) : Nat :=
  bisect p table table.size 0 table.size

/-- The search ends behind an entry that satisfies `p`, if it has moved, and before one that does
not. -/
theorem bisect_spec {p : Nat → Bool} {table : Array Nat} {steps low high : Nat}
    (hle : low ≤ high) (hsteps : high ≤ low + steps) (hhigh : high ≤ table.size)
    (hbelow : 0 < low → ∃ x, table[low - 1]? = some x ∧ p x = true)
    (habove : ∀ x, table[high]? = some x → p x = false) :
    bisect p table steps low high ≤ table.size ∧
      (0 < bisect p table steps low high →
        ∃ x, table[bisect p table steps low high - 1]? = some x ∧ p x = true) ∧
      ∀ x, table[bisect p table steps low high]? = some x → p x = false := by
  induction steps generalizing low high with
  | zero =>
    obtain rfl : low = high := by omega
    exact ⟨hhigh, hbelow, habove⟩
  | succ steps ih =>
    rw [bisect]
    split
    case isFalse h =>
      obtain rfl : low = high := by omega
      exact ⟨hhigh, hbelow, habove⟩
    case isTrue h =>
      have hmid : (low + high) / 2 < table.size := by omega
      have hentry := Array.getElem?_eq_getElem hmid
      split
      case isTrue hp =>
        rw [hentry, Option.any_some] at hp
        refine ih (by omega) (by omega) hhigh (fun _ => ?_) habove
        exact ⟨_, hentry, hp⟩
      case isFalse hp =>
        rw [hentry, Option.any_some, Bool.not_eq_true] at hp
        refine ih (by omega) (by omega) (by omega) hbelow ?_
        intro x hx
        rw [hentry] at hx
        exact Option.some.inj hx ▸ hp

theorem partitionPoint_spec (p : Nat → Bool) (table : Array Nat) :
    partitionPoint p table ≤ table.size ∧
      (0 < partitionPoint p table →
        ∃ x, table[partitionPoint p table - 1]? = some x ∧ p x = true) ∧
      ∀ x, table[partitionPoint p table]? = some x → p x = false := by
  refine bisect_spec (Nat.zero_le _) (by omega) (Nat.le_refl _) (by omega) ?_
  intro x hx
  simp at hx

/-- The characters from offset `start` up to offset `stop`, if both lie between characters. -/
def between? (src : Source) (start stop : Nat) : Option (List Char) :=
  if start ≤ stop then
    match Text.skip? start src.chars with
    | none => none
    | some rest => (Text.cut? (stop - start) rest).map (·.1)
  else none

/-- Look up where an offset lies; past the end, where the text ends. The line is found in the table
of line starts. Inside a character the column counts bytes. -/
def locate (src : Source) (offset : Nat) : Except Error Location := do
  let offset := min offset src.size
  let line ← Checked.sub (partitionPoint (· ≤ offset) src.lineStarts) 1
  let start ← Checked.entry src.lineStarts line
  let col ← match src.between? start offset with
    | some cs => .ok cs.length
    | none => Checked.sub offset start
  return { offset, line := line.toUInt32, col := col.toUInt32 }

theorem exists_lineStart (src : Source) (offset : Nat) :
    0 < partitionPoint (· ≤ offset) src.lineStarts ∧
      ∃ start, src.lineStarts[partitionPoint (· ≤ offset) src.lineStarts - 1]? = some start ∧
        start ≤ offset := by
  obtain ⟨-, hbelow, habove⟩ := partitionPoint_spec (· ≤ offset) src.lineStarts
  have hpos : 0 < partitionPoint (· ≤ offset) src.lineStarts := by
    apply Nat.pos_of_ne_zero
    intro hzero
    have hfirst := habove 0 (by rw [hzero]; rfl)
    simp at hfirst
  obtain ⟨start, hstart, hle⟩ := hbelow hpos
  exact ⟨hpos, start, hstart, by simpa using hle⟩

theorem exists_locate (src : Source) (offset : Nat) : ∃ line start col,
    src.locate offset = .ok ⟨min offset src.size, line.toUInt32, col.toUInt32⟩ ∧
      line + 1 = partitionPoint (· ≤ min offset src.size) src.lineStarts ∧
      src.lineStarts[line]? = some start ∧
      col = ((src.between? start (min offset src.size)).map List.length).getD
        (min offset src.size - start) := by
  obtain ⟨hpos, start, hstart, hle⟩ := src.exists_lineStart (min offset src.size)
  refine ⟨_, start, _, ?_, by omega, hstart, rfl⟩
  simp only [locate, Checked.sub_eq_ok hpos, Checked.entry_eq_ok hstart, bind, Except.bind]
  cases src.between? start (min offset src.size) with
  | none => simp [Checked.sub_eq_ok hle, pure, Except.pure]
  | some cs => simp [pure, Except.pure]

theorem isSome_locate (src : Source) (offset : Nat) :
    (src.locate offset).toOption.isSome = true := by
  obtain ⟨line, start, col, hlocate, -⟩ := src.exists_locate offset
  rw [hlocate]
  rfl

def location (src : Source) (offset : Nat) : Location :=
  (src.locate offset).toOption.get (src.isSome_locate offset)

theorem locate_eq_ok (src : Source) (offset : Nat) :
    src.locate offset = .ok (src.location offset) := by
  have hget : ∀ {r : Except Error Location} (h : r.toOption.isSome = true),
      r = .ok (r.toOption.get h) := by
    intro r h
    cases r with
    | error e => simp [Except.toOption] at h
    | ok l => rfl
  exact hget _

@[simp] theorem location_offset (src : Source) (o : Nat) :
    (src.location o).offset = min o src.size := by
  obtain ⟨line, start, col, hlocate, -⟩ := src.exists_locate o
  rw [locate_eq_ok] at hlocate
  rw [Except.ok.inj hlocate]

def span (src : Source) (start stop : Nat) : Span := ⟨src.location start, src.location stop⟩

/-- The position `delta` bytes further on, or back; it stays within the text. -/
def shift (src : Source) (l : Location) (delta : Int) : Location :=
  src.location (l.offset + delta).toNat

def moved (src : Source) (l : Location) (delta : Int) : Except Error Location :=
  src.locate (l.offset + delta).toNat

theorem moved_eq_ok (src : Source) (l : Location) (delta : Int) :
    src.moved l delta = .ok (src.shift l delta) := src.locate_eq_ok _

def slice? (src : Source) (start stop : Nat) : Option String :=
  (src.between? start stop).map String.ofList

def slice (src : Source) (s : Span) : Except Error String :=
  match src.slice? s.start.offset s.stop.offset with
  | some text => .ok text
  | none => .error (.spanOutOfBounds s.start.offset s.stop.offset src.size)

theorem between?_eq_some_iff {src : Source} {start stop : Nat} {cs : List Char} :
    src.between? start stop = some cs ↔
      ∃ before after, src.chars = before ++ cs ++ after ∧
        Text.byteLength before = start ∧ Text.byteLength (before ++ cs) = stop := by
  constructor
  · intro h
    rw [between?, Text.skip?_eq] at h
    split at h
    case isFalse => simp at h
    case isTrue hle =>
      split at h
      case h_1 => simp at h
      case h_2 rest hr =>
        obtain ⟨⟨before, behind⟩, hb, rfl⟩ := Option.map_eq_some_iff.mp hr
        obtain ⟨⟨part, after⟩, hp, rfl⟩ := Option.map_eq_some_iff.mp h
        obtain ⟨hsrc, hstart⟩ := Text.cut?_some_spec hb
        obtain ⟨hrest, hlen⟩ := Text.cut?_some_spec hp
        have hbehind : behind = part ++ after := hrest
        have hpart : Text.byteLength part = stop - start := hlen
        refine ⟨before, after, ?_, hstart, ?_⟩
        · rw [hsrc, hbehind, List.append_assoc]
        · rw [Text.byteLength_append, hstart, hpart]
          omega
  · rintro ⟨before, after, hsrc, rfl, rfl⟩
    have hb : Text.cut? (Text.byteLength before) src.chars = some (before, cs ++ after) := by
      rw [hsrc, List.append_assoc]; exact Text.cut?_append _ _
    simp [between?, Text.skip?_eq, hb, Text.cut?_append]

theorem slice?_some_iff {src : Source} {start stop : Nat} {text : String} :
    src.slice? start stop = some text ↔
      ∃ before after, src.chars = before ++ text.toList ++ after ∧
        Text.byteLength before = start ∧ Text.byteLength (before ++ text.toList) = stop := by
  rw [← between?_eq_some_iff, slice?, Option.map_eq_some_iff]
  constructor
  · rintro ⟨cs, hcs, rfl⟩
    rwa [String.toList_ofList]
  · exact fun h => ⟨_, h, String.ofList_toList⟩

end Source

end Markup
