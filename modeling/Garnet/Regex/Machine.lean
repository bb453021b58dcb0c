import Garnet.Regex.Basic

/-!
# Matching

A pattern is laid out as instructions, and a text is matched by trying the preferred branch first.
An instruction that failed once at a position fails there again, so every pair of instruction and
position is tried at most once, which bounds the search.
-/

namespace Garnet.Regex

/-- One step of a match. -/
inductive Instr where
  | take (s : Chars) (next : Nat)
  | check (l : Look) (next : Nat)
  /-- Tries `first` before `second`. -/
  | fork (first second : Nat)
  | save (slot next : Nat)
  | accept

/-- Instructions under construction; each is known by its position. -/
abbrev Layout := StateM (Array Instr)

def emit (i : Instr) : Layout Nat := fun is => (is.size, is.push i)

/-- A fork between repeating and going on, in the order of preference. -/
def choice (greedy : Bool) (again done : Nat) : Instr :=
  if greedy then .fork again done else .fork done again

/-- Lays out a loop: `body` continues at a fork that leads back to the body or on to `next`. Gives
the fork and the start of the body. -/
def loop (body : Nat → Layout Nat) (greedy : Bool) (next : Nat) : Layout (Nat × Nat) := do
  let fork ← emit .accept
  let start ← body fork
  modify fun is => is.setIfInBounds fork (choice greedy start next)
  pure (fork, start)

/-- Lays out `n` copies of `body` before `next`. -/
def copies (body : Nat → Layout Nat) : Nat → Nat → Layout Nat
  | 0, next => pure next
  | n + 1, next => do
    let rest ← copies body n next
    body rest

/-- Up to `n` copies of `body`, each of which may be left out together with those after it. -/
def upTo (body : Nat → Layout Nat) (greedy : Bool) (next : Nat) : Nat → Layout Nat
  | 0 => pure next
  | n + 1 => do
    let rest ← upTo body greedy next n
    let start ← body rest
    emit (choice greedy start next)

/-- Lays out `a` so that a match goes on at `next`; gives where it starts. -/
def layout : Node → Nat → Layout Nat
  | .empty, next => pure next
  | .chars s, next => emit (.take s next)
  | .look l, next => emit (.check l next)
  | .cat a b, next => do
    let rest ← layout b next
    layout a rest
  | .alt a b, next => do
    let second ← layout b next
    let first ← layout a next
    emit (.fork first second)
  | .capture i a, next => do
    let close ← emit (.save (2 * i + 1) next)
    let start ← layout a close
    emit (.save (2 * i) start)
  | .repeated a 0 none greedy, next => do
    let (fork, start) ← loop (layout a) greedy next
    if a.minLength > 0 then pure fork else emit (choice greedy start next)
  | .repeated a (n + 1) none greedy, next => do
    let (_, start) ← loop (layout a) greedy next
    copies (layout a) n start
  | .repeated a n (some m) greedy, next => do
    let rest ← upTo (layout a) greedy next (m - n)
    copies (layout a) n rest

/-- A pattern ready to be matched. -/
structure Compiled where
  instrs : Array Instr
  start : Nat
  /-- The number of groups, the whole match included. -/
  groups : Nat

def Compiled.ofNode (a : Node) (groups : Nat) : Compiled :=
  let (start, instrs) := (do
    let accept ← emit .accept
    layout (.capture 0 a) accept : Layout Nat) #[]
  ⟨instrs, start, groups⟩

def wordAt (text : Array Char) (i : Nat) : Bool :=
  match text[i]? with
  | some c => Text.isWordChar c
  | none => false

/-- Whether the character before position `i` is part of a word. -/
def wordBefore (text : Array Char) (i : Nat) : Bool := 0 < i && wordAt text (i - 1)

def Look.holds (l : Look) (text : Array Char) (i : Nat) : Bool :=
  match l with
  | .textStart => i == 0
  | .textEnd => i == text.size
  | .lineStart => i == 0 || text[i - 1]? == some '\n'
  | .lineEnd => i == text.size || text[i]? == some '\n'
  | .wordBoundary => wordBefore text i != wordAt text i
  | .notWordBoundary => wordBefore text i == wordAt text i
  | .wordStart => !wordBefore text i && wordAt text i
  | .wordEnd => wordBefore text i && !wordAt text i

/-- Where groups begin and end so far. -/
abbrev Slots := Array (Option Nat)

/-- A branch that is still to be tried. -/
structure Branch where
  pc : Nat
  pos : Nat
  slots : Slots

/-- The search: branches in order of preference, and which pairs of instruction and position were
tried. -/
structure Search where
  pending : List Branch
  tried : Array Bool

/-- Follows the preferred branch; `fuel` bounds the steps. -/
def explore (m : Compiled) (text : Array Char) : Nat → Search → Option Slots × Array Bool
  | 0, s => (none, s.tried)
  | fuel + 1, s =>
    match s.pending with
    | [] => (none, s.tried)
    | b :: rest =>
      let key := b.pc * (text.size + 1) + b.pos
      if s.tried.getD key true then explore m text fuel { s with pending := rest }
      else
        let tried := s.tried.setIfInBounds key true
        match m.instrs[b.pc]? with
        | none => explore m text fuel ⟨rest, tried⟩
        | some .accept => (some b.slots, tried)
        | some (.take set next) =>
          match text[b.pos]? with
          | some c =>
            if set.contains c then explore m text fuel ⟨⟨next, b.pos + 1, b.slots⟩ :: rest, tried⟩
            else explore m text fuel ⟨rest, tried⟩
          | none => explore m text fuel ⟨rest, tried⟩
        | some (.check l next) =>
          if l.holds text b.pos then explore m text fuel ⟨{ b with pc := next } :: rest, tried⟩
          else explore m text fuel ⟨rest, tried⟩
        | some (.fork first second) =>
          explore m text fuel ⟨{ b with pc := first } :: { b with pc := second } :: rest, tried⟩
        | some (.save slot next) =>
          let slots := b.slots.setIfInBounds slot (some b.pos)
          explore m text fuel ⟨⟨next, b.pos, slots⟩ :: rest, tried⟩

/-- The first position from `start` on at which the pattern matches; `n` bounds the positions. -/
def scan (m : Compiled) (text : Array Char) : Nat → Nat → Array Bool → Option Slots
  | 0, _, _ => none
  | n + 1, start, tried =>
    let fuel := 3 * m.instrs.size * (text.size + 1) + 3
    let slots := Array.replicate (2 * m.groups) none
    match explore m text fuel ⟨[⟨m.start, start, slots⟩], tried⟩ with
    | (some slots, _) => some slots
    | (none, tried) => scan m text n (start + 1) tried

/-- A stretch of text: the positions of its first character and of the one after its last. -/
structure Span where
  first : Nat
  last : Nat
  deriving DecidableEq, Repr

/-- The groups of a match; the first is the whole match. -/
structure Match where
  whole : Span
  groups : List (Option Span)

/-- The match that the slots describe. -/
def matchOf (m : Compiled) (slots : Slots) : Option Match :=
  let span := fun i => match slots.getD (2 * i) none, slots.getD (2 * i + 1) none with
    | some a, some b => some (Span.mk a b)
    | _, _ => none
  (span 0).map fun whole => ⟨whole, (List.range m.groups).map span⟩

/-- The leftmost match at or after position `start`. -/
def Compiled.findFrom (m : Compiled) (text : Array Char) (start : Nat) : Option Match :=
  if start ≤ text.size then
    let tried := Array.replicate (m.instrs.size * (text.size + 1)) false
    (scan m text (text.size + 1 - start) start tried).bind (matchOf m)
  else none

/-- All matches from `start` on that do not overlap. An empty match is not found where the previous
match ended. `n` bounds their number. -/
def Compiled.findAllFrom (m : Compiled) (text : Array Char) :
    Nat → Nat → Option Nat → List Match
  | 0, _, _ => []
  | n + 1, start, previous =>
    match m.findFrom text start with
    | none => []
    | some found =>
      if found.whole.first == found.whole.last && previous == some found.whole.last then
        match m.findFrom text (start + 1) with
        | none => []
        | some found => found :: m.findAllFrom text n found.whole.last (some found.whole.last)
      else found :: m.findAllFrom text n found.whole.last (some found.whole.last)

def Compiled.findAll (m : Compiled) (text : Array Char) : List Match :=
  m.findAllFrom text (text.size + 2) 0 none

end Garnet.Regex
