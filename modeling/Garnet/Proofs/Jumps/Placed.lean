import Garnet.Object.Block

/-!
# Where `next` stands, and what is assigned

In a program every `next` stands inside of a loop or a block. Method, class and module bodies see
nothing around them. The test of a loop, its target and the defaults of parameters belong to what is
outside.

Along with it goes which global variables a program may assign, in an assignment or in a target.
-/

namespace Garnet

variable {ε : Type}

/-! ## The parts of an expression -/

def Item.parts : Item ε → List ε
  | plain e | splat e => [e]

def Piece.parts : Piece ε → List ε
  | literal _ => []
  | hole e => [e]

def ConstPath.parts : ConstPath ε → List ε
  | inside e => [e]
  | _ => []

/-- The defaults. -/
def Params.parts (p : Params ε) : List ε := p.optional.map (·.2)

mutual

def Target.parts : Target ε → List ε
  | .const path _ => path.parts
  | .attribute recv _ args _ => recv.toList ++ args.flatMap Item.parts
  | .index recv args => recv :: args.flatMap Item.parts
  | .many slots => Target.slotParts slots
  | _ => []

def Target.slotParts : List (Slot (Target ε)) → List ε
  | [] => []
  | .one t :: slots | .rest (some t) :: slots => t.parts ++ Target.slotParts slots
  | .rest none :: slots => Target.slotParts slots

end

def Place.parts : Place ε → List ε
  | .const path _ => path.parts
  | .attribute recv _ _ _ => recv.toList
  | .index recv args => recv :: args.flatMap Item.parts
  | _ => []

def Clause.parts (c : Clause ε) : List ε :=
  (c.classes.getD []).flatMap Item.parts ++ (c.bind.map Target.parts).getD [] ++ [c.body]

/-! ## The globals that are assigned -/

mutual

def Target.globals : Target ε → List String
  | .gvar n => [n]
  | .many slots => Target.slotGlobals slots
  | _ => []

def Target.slotGlobals : List (Slot (Target ε)) → List String
  | [] => []
  | .one t :: slots | .rest (some t) :: slots => t.globals ++ Target.slotGlobals slots
  | .rest none :: slots => Target.slotGlobals slots

end

def Place.globals : Place ε → List String
  | .gvar n => [n]
  | _ => []

def Clause.globals (c : Clause ε) : List String := (c.bind.map Target.globals).getD []

/-! ## The parts of an expression and where they stand -/

/-- How a part stands to the loops and blocks around the whole. -/
inductive Nesting where
  | here
  /-- In the body of a loop or a block. -/
  | inside
  /-- In a body that sees nothing around it. -/
  | apart

/-- Whether there is a loop or a block around a part. -/
@[simp]
def Nesting.context : Nesting → Bool → Bool
  | here, b => b
  | inside, _ => true
  | apart, _ => false

def BlockLiteral.parts (b : BlockLiteral ε) : List (Nesting × ε) :=
  (.inside, b.body) :: b.params.parts.map (.here, ·)

def BlockArg.parts : BlockArg ε → List (Nesting × ε)
  | literal b => b.parts
  | pass e => [(.here, e)]
  | _ => []

namespace Expr

/-- The expressions directly inside of an expression. -/
@[simp]
def parts : Expr → List (Nesting × Expr)
  | interpolated ps | interpolatedSymbol ps | regexp ps _ => (ps.flatMap Piece.parts).map (.here, ·)
  | array items | yield items => (items.flatMap Item.parts).map (.here, ·)
  | hash pairs => (pairs.flatMap fun p => [p.1, p.2]).map (.here, ·)
  | range a b _ | logic _ a b | ensure a b | aliasMethod a b => [(.here, a), (.here, b)]
  | const path _ => path.parts.map (.here, ·)
  | setLocal _ e | setIvar _ e | setGvar _ e | setCvar _ e | not e | next e | breakTo _ e
  | returnWith e | splat e => [(.here, e)]
  | setConst path _ e => (path.parts ++ [e]).map (.here, ·)
  | setMany t e => (t.parts ++ [e]).map (.here, ·)
  | update p _ e | updateIf p _ e => (p.parts ++ [e]).map (.here, ·)
  | sequence es => es.map (.here, ·)
  | cond test yes no => [(.here, test), (.here, yes), (.here, no)]
  | loop test body _ _ _ => [(.here, test), (.inside, body)]
  | forEach t source body _ => (.inside, body) :: (t.parts ++ [source]).map (.here, ·)
  | select subject arms otherwise =>
    (subject.toList ++ arms.flatMap (fun a => a.1.flatMap Item.parts ++ [a.2]) ++
      [otherwise]).map (.here, ·)
  | rescue body clauses otherwise =>
    ([body] ++ clauses.flatMap Clause.parts ++ otherwise.toList).map (.here, ·)
  | send recv _ args block _ _ =>
    (recv.toList ++ args.flatMap Item.parts).map (.here, ·) ++ block.parts
  | super args block => ((args.getD []).flatMap Item.parts).map (.here, ·) ++ block.parts
  | index recv args | setIndex recv args => (recv :: args.flatMap Item.parts).map (.here, ·)
  | lambda b => b.parts
  | define _ params body => (.apart, body) :: params.parts.map (.apart, ·)
  | defineOn target _ params body =>
    (.here, target) :: (.apart, body) :: params.parts.map (.apart, ·)
  | openClass path _ base body =>
    (path.parts ++ base.toList).map (.here, ·) ++ body.toList.map (.apart, ·)
  | openModule path _ body => path.parts.map (.here, ·) ++ body.toList.map (.apart, ·)
  | openSingleton target body => (.here, target) :: body.toList.map (.apart, ·)
  | _ => []

def isNext : Expr → Bool
  | next _ => Bool.true
  | _ => Bool.false

/-- The globals that an expression assigns itself, leaving its parts aside. -/
def globals : Expr → List String
  | setGvar n _ => [n]
  | setMany t _ | forEach t _ _ _ => t.globals
  | update p _ _ | updateIf p _ _ => p.globals
  | rescue _ clauses _ => clauses.flatMap Clause.globals
  | _ => []

/-- Every `next` of an expression is inside of a loop or a block, and every global that it assigns
is one of `A`; `b` says whether the expression is inside of a loop or a block. -/
inductive Placed (A : String → Prop) : Bool → Expr → Prop where
  | mk {b : Bool} {e : Expr} (next : e.isNext → b) (globals : ∀ n ∈ e.globals, A n)
    (parts : ∀ w x, (w, x) ∈ e.parts → Placed A (w.context b) x) : Placed A b e

namespace Placed

variable {A : String → Prop} {b : Bool} {e x : Expr}

theorem next (h : (Expr.next x).Placed A b) : b := by
  cases h with
  | mk next _ _ => exact next rfl

theorem globals (h : e.Placed A b) : ∀ n ∈ e.globals, A n := by
  cases h with
  | mk _ globals _ => exact globals

/-- What needs nothing around it can stand anywhere, and anything can stand in a loop. -/
theorem mono {b' : Bool} (h : e.Placed A b) (hb : b → b') : e.Placed A b' := by
  induction h generalizing b' with
  | mk next globals _ ih =>
    refine .mk (fun h => hb (next h)) globals fun w x hx => ih w x hx ?_
    cases w with
    | here => exact hb
    | inside => exact id
    | apart => exact id

end Placed

end Expr

/-! ## Lists of parts -/

/-- All of these expressions are placed. -/
def PlacedAll (A : String → Prop) (b : Bool) (es : List Expr) : Prop := ∀ e ∈ es, e.Placed A b

/-- All of these parts are placed in a whole. -/
def PlacedParts (A : String → Prop) (b : Bool) (ps : List (Nesting × Expr)) : Prop :=
  ∀ w x, (w, x) ∈ ps → x.Placed A (w.context b)

/-- The parts of a target are placed, and the globals that it assigns are among `A`. -/
structure Target.Placed (A : String → Prop) (b : Bool) (t : Target Expr) : Prop where
  parts : PlacedAll A b t.parts
  globals : ∀ n ∈ t.globals, A n

section

variable {A : String → Prop} {b b' : Bool} {e : Expr} {es es' : List Expr}
  {ps qs : List (Nesting × Expr)}

theorem Expr.Placed.of_globals (hnext : e.isNext = Bool.false) (hglobals : ∀ n ∈ e.globals, A n)
    (h : PlacedParts A b e.parts) : e.Placed A b :=
  .mk (fun h => absurd h (Bool.eq_false_iff.mp hnext)) hglobals h

theorem Expr.Placed.of_parts (hnext : e.isNext = Bool.false) (hglobals : e.globals = [])
    (h : PlacedParts A b e.parts) : e.Placed A b :=
  .of_globals hnext (hglobals ▸ fun _ h => absurd h List.not_mem_nil) h

theorem Expr.Placed.parts (h : e.Placed A b) : PlacedParts A b e.parts := by
  cases h with
  | mk _ _ parts => exact parts

theorem Target.Placed.of_parts {t : Target Expr} (hglobals : t.globals = [])
    (h : PlacedAll A b t.parts) : t.Placed A b :=
  ⟨h, hglobals ▸ fun _ h => absurd h List.not_mem_nil⟩

theorem PlacedAll.mono (h : PlacedAll A b es) (hb : b → b') : PlacedAll A b' es :=
  fun e he => (h e he).mono hb

theorem Target.Placed.mono {t : Target Expr} (h : t.Placed A b) (hb : b → b') : t.Placed A b' :=
  ⟨h.parts.mono hb, h.globals⟩

@[simp]
theorem placedAll_nil : PlacedAll A b [] := fun _ h => absurd h List.not_mem_nil

@[simp]
theorem placedAll_cons : PlacedAll A b (e :: es) ↔ e.Placed A b ∧ PlacedAll A b es :=
  List.forall_mem_cons

@[simp]
theorem placedAll_append : PlacedAll A b (es ++ es') ↔ PlacedAll A b es ∧ PlacedAll A b es' :=
  List.forall_mem_append

@[simp]
theorem placedParts_nil : PlacedParts A b [] := fun _ _ h => absurd h List.not_mem_nil

@[simp]
theorem placedParts_cons {w : Nesting} :
    PlacedParts A b ((w, e) :: ps) ↔ e.Placed A (w.context b) ∧ PlacedParts A b ps := by
  constructor
  · intro h
    exact ⟨h w e List.mem_cons_self, fun w x hx => h w x (List.mem_cons_of_mem _ hx)⟩
  · rintro ⟨he, hps⟩ w' x hx
    rcases List.mem_cons.mp hx with h | hx
    · cases h
      exact he
    · exact hps w' x hx

@[simp]
theorem placedParts_append :
    PlacedParts A b (ps ++ qs) ↔ PlacedParts A b ps ∧ PlacedParts A b qs := by
  induction ps with
  | nil => simp only [List.nil_append, placedParts_nil, true_and]
  | cons p ps ih => rw [List.cons_append, placedParts_cons, placedParts_cons, ih, and_assoc]

@[simp]
theorem placedParts_map {w : Nesting} :
    PlacedParts A b (es.map (w, ·)) ↔ PlacedAll A (w.context b) es := by
  induction es with
  | nil => simp only [List.map_nil, placedParts_nil, placedAll_nil]
  | cons e es ih => rw [List.map_cons, placedParts_cons, placedAll_cons, ih]

/-! ### Targets of a multiple assignment -/

variable {t : Target Expr} {slots : List (Slot (Target Expr))}

theorem Target.placed_iff : t.Placed A b ↔ PlacedAll A b t.parts ∧ ∀ n ∈ t.globals, A n :=
  ⟨fun h => ⟨h.parts, h.globals⟩, fun h => ⟨h.1, h.2⟩⟩

theorem Target.placed_many : (Target.many slots).Placed A b ↔
    PlacedAll A b (slotParts slots) ∧ ∀ n ∈ slotGlobals slots, A n :=
  placed_iff

/-- The first place, with those behind it. -/
theorem Target.placed_cons : (PlacedAll A b (t.parts ++ slotParts slots) ∧
    ∀ n ∈ t.globals ++ slotGlobals slots, A n) ↔
      t.Placed A b ∧ (Target.many slots).Placed A b := by
  rw [placed_iff, placed_many, placedAll_append, List.forall_mem_append, and_and_and_comm]

@[simp]
theorem Target.placed_many_nil : (Target.many []).Placed A b :=
  placed_many.mpr ⟨placedAll_nil, fun _ h => absurd h List.not_mem_nil⟩

@[simp]
theorem Target.placed_many_one : (Target.many (.one t :: slots)).Placed A b ↔
    t.Placed A b ∧ (Target.many slots).Placed A b :=
  placed_many.trans placed_cons

@[simp]
theorem Target.placed_many_rest : (Target.many (.rest (some t) :: slots)).Placed A b ↔
    t.Placed A b ∧ (Target.many slots).Placed A b :=
  placed_many.trans placed_cons

@[simp]
theorem Target.placed_many_rest_none : (Target.many (.rest none :: slots)).Placed A b ↔
    (Target.many slots).Placed A b := by
  rw [placed_many, placed_many]
  exact Iff.rfl

end

end Garnet
