import Garnet.Program.Build.Forms
import Garnet.Tree.Json
import Garnet.Tree.Reader
import Garnet.Proofs.Json.Leaves
import Garnet.Proofs.Trees.Reread

/-!
# Trees in JSON

A tree is written as an object with its tag and the list of its children. The reader follows the
writer slot by slot: each child is read as what it was written for, so that a tree is read back as
it was as long as no more brackets are nested than the reader allows.
-/

namespace Garnet

open Text (Json)
open Text.Json

namespace Child

section

variable (space : List Char) (numeral : Float → List Char)

/-- The members of an object for a tree up to the list of its children. -/
def fieldsJson (tag : String) : List Char :=
  quoted "type" ++ ':' :: (space ++ (quoted tag ++ ',' :: (space ++
    (quoted "children" ++ ':' :: space))))

mutual

/-- The JSON text of a slot, with `space` behind colons and commas and with doubles written by
`numeral`. -/
def json : Child → List Char
  | .node tag children =>
    '\x7b' :: (fieldsJson space tag ++ '[' :: (jsonAll children ++ [']', '\x7d']))
  | .int v => intText v.toInt
  | .float v => numeral v
  | .text s => quoted s
  | .absent => "null".toList

def jsonAll : List Child → List Char
  | [] => []
  | [c] => json c
  | c :: cs => json c ++ ',' :: (space ++ jsonAll cs)

end

end

mutual

/-- The JSON value of a slot. -/
def value : Child → Json
  | .node tag children => .object [("type", .text tag), ("children", .list (valueAll children))]
  | .int v => .int v.toInt
  | .float v => .float v
  | .text s => .text s
  | .absent => .null

def valueAll : List Child → List Json
  | [] => []
  | c :: cs => value c :: valueAll cs

end

mutual

/-- A value is taken for the slot that it was made for. -/
theorem ofJson?_value : ∀ c : Child, ofJson? c.value = some c
  | .node tag cs => by
    have hcs := ofJsonAll?_valueAll cs
    simp only [value, ofJson?, fields?, typeOf?, childrenOf?, hcs]
    rfl
  | .int v => by rw [value, ofJson?, if_pos (Reader.isWord_toInt v), Int64.ofInt_toInt]
  | .float v => by rw [value, ofJson?]
  | .text s => by rw [value, ofJson?]
  | .absent => by rw [value, ofJson?]

theorem ofJsonAll?_valueAll : ∀ cs : List Child, ofJsonAll? (valueAll cs) = some cs
  | [] => by rw [valueAll, ofJsonAll?]
  | c :: cs => by
    rw [valueAll, ofJsonAll?, ofJson?_value c, ofJsonAll?_valueAll cs]
    rfl

end

end Child

namespace Text.Json

variable {space rest : List Char} {numeral : Float → List Char} {mode : Mode}
  {modeOf : String → Mode} {fuel level : Nat}

/-! ## Values -/

theorem skipSpace_of_head {d : Char} (hd : isSpace d = false) (ds : List Char) :
    skipSpace (d :: ds) = d :: ds := by
  rw [skipSpace, List.dropWhile_cons_of_neg (by rw [hd]; exact Bool.false_ne_true)]

theorem skipSpace_append (hspace : ∀ c ∈ space, isSpace c) (cs : List Char) :
    skipSpace (space ++ cs) = skipSpace cs :=
  List.dropWhile_append_of_pos hspace

/-- Space in front of a value does not count. -/
theorem value?_space (hspace : ∀ c ∈ space, isSpace c) (cs : List Char) :
    value? mode fuel level (space ++ cs) = value? mode fuel level cs := by
  cases fuel with
  | zero => rfl
  | succ fuel => rw [value?.eq_def, value?.eq_def]; simp only [skipSpace_append hspace]

theorem value?_quoted (s : String) (rest : List Char) :
    value? mode (fuel + 1) level (quoted s ++ rest) = some (.text s, rest) := by
  have hstep (cs : List Char) : value? mode (fuel + 1) level ('"' :: cs) =
      (string? mode (cs.length + 1) cs []).bind fun x => some (.text x.1, x.2) := rfl
  have htext : quoted s ++ rest = '"' :: (escaped s ++ '"' :: rest) := by simp [quoted]
  rw [htext, hstep, string?_escaped, Option.bind_some]

theorem value?_null (rest : List Char) :
    value? mode (fuel + 1) level ("null".toList ++ rest) = some (.null, rest) := rfl

theorem ne_of_numberHead {c d : Char} (hd : d.isDigit ∨ d = '-') (hc : ¬(c.isDigit ∨ c = '-')) :
    d ≠ c :=
  fun h => hc (h ▸ hd)

theorem isSpace_numberHead {d : Char} (hd : d.isDigit ∨ d = '-') : isSpace d = false := by
  simp only [isSpace, Bool.or_eq_false_iff, beq_eq_false_iff_ne]
  exact ⟨⟨⟨ne_of_numberHead hd (by decide), ne_of_numberHead hd (by decide)⟩,
    ne_of_numberHead hd (by decide)⟩, ne_of_numberHead hd (by decide)⟩

/-- What begins like a number is read as one. -/
theorem value?_number {w : List Char} (hw : ∃ d ds, w = d :: ds ∧ (d.isDigit ∨ d = '-'))
    (rest : List Char) :
    value? mode (fuel + 1) level (w ++ rest) = number? mode (w ++ rest) := by
  obtain ⟨d, ds, rfl, hd⟩ := hw
  rw [value?.eq_def, List.cons_append]
  dsimp only
  rw [skipSpace_of_head (isSpace_numberHead hd)]
  split
  case h_1 h => cases h
  case h_8 => rfl
  all_goals
    rename_i h
    exact absurd (List.cons.inj h).1 (ne_of_numberHead hd (by decide))

/-! ## Lists and objects -/

variable {cs more : List Char} {value : Option Json}

theorem items?_space (hspace : ∀ c ∈ space, isSpace c) (cs : List Char) :
    items? mode fuel level (space ++ cs) = items? mode fuel level cs := by
  cases fuel with
  | zero => rfl
  | succ fuel => rw [items?.eq_def, items?.eq_def]; simp only [value?_space hspace]

/-- The last item of a list. -/
theorem items?_last (h : value? mode fuel level cs = value.map (·, ']' :: rest)) :
    items? mode (fuel + 1) level cs = value.map ([·], rest) := by
  rw [items?.eq_def]
  simp only [h]
  cases value <;> rfl

/-- An item in front of others. -/
theorem items?_more (h : value? mode fuel level cs = value.map (·, ',' :: more)) :
    items? mode (fuel + 1) level cs =
      value.bind fun x => (items? mode fuel level more).map fun xs => (x :: xs.1, xs.2) := by
  rw [items?.eq_def]
  simp only [h]
  cases value with
  | none => rfl
  | some x =>
    simp only [Option.map_some, bind, Option.bind_some, skipSpace_of_head (d := ',') rfl]
    cases items? mode fuel level more <;> rfl

/-- A list that is not empty. -/
theorem value?_items {d : Char} (hd : isSpace d = false) (hclose : d ≠ ']') (cs : List Char) :
    value? .read (fuel + 1) level ('[' :: d :: cs) =
      if level = 0 then none
      else (items? .read fuel (level - 1) (d :: cs)).map fun xs => (.list xs.1, xs.2) := by
  cases level with
  | zero => rfl
  | succ level =>
    rw [if_neg level.succ_ne_zero, Nat.add_sub_cancel, value?.eq_def]
    have hdeep : ¬(Mode.read == Mode.read && level + 1 == 0) = true := Bool.false_ne_true
    simp only [skipSpace_of_head (d := '[') rfl, skipSpace_of_head hd, if_neg hdeep]
    split
    case h_1 h => exact absurd (List.cons.inj h).1 hclose
    case h_2 =>
      rw [Nat.add_sub_cancel]
      cases items? .read fuel level (d :: cs) <;> rfl

theorem value?_empty (rest : List Char) :
    value? .read (fuel + 1) level ('[' :: ']' :: rest) =
      if level = 0 then none else some (.list [], rest) := by
  cases level <;> rfl

/-- An object that is not empty. -/
theorem value?_members (cs : List Char) :
    value? .read (fuel + 1) level ('\x7b' :: '"' :: cs) =
      if level = 0 then none
      else (members? .read (fun _ => .read) fuel (level - 1) ('"' :: cs)).map
        fun xs => (.object xs.1, xs.2) := by
  cases level with
  | zero => rfl
  | succ level =>
    rw [if_neg level.succ_ne_zero, Nat.add_sub_cancel]
    change (members? .read (fun _ => .read) fuel level ('"' :: cs)).bind _ = _
    cases members? .read (fun _ => .read) fuel level ('"' :: cs) <;> rfl

theorem members?_space (hspace : ∀ c ∈ space, isSpace c) (cs : List Char) :
    members? mode modeOf fuel level (space ++ cs) = members? mode modeOf fuel level cs := by
  cases fuel with
  | zero => rfl
  | succ fuel => rw [members?.eq_def, members?.eq_def]; simp only [skipSpace_append hspace]

/-- A member is read for its name and its value. -/
theorem exists_members?_quoted (name : String) (cs : List Char) :
    ∃ next, members? mode modeOf (fuel + 1) level (quoted name ++ ':' :: cs) =
        (value? (modeOf name) fuel level cs).bind next ∧
      (∀ x rest, next (x, '\x7d' :: rest) = some ([(name, x)], rest)) ∧
      ∀ x more, next (x, ',' :: more) =
        (members? mode modeOf fuel level more).map fun xs => ((name, x) :: xs.1, xs.2) := by
  have htext : quoted name ++ ':' :: cs = '"' :: (escaped name ++ '"' :: ':' :: cs) := by
    simp [quoted]
  rw [htext, members?.eq_def]
  simp only [skipSpace_of_head (d := '"') rfl, skipSpace_of_head (d := ':') rfl, string?_escaped,
    bind, Option.bind_some]
  refine ⟨_, rfl, fun _ _ => rfl, fun x more => ?_⟩
  simp only [skipSpace_of_head (d := ',') rfl]
  cases members? mode modeOf fuel level more <;> rfl

/-- The last member of an object. -/
theorem members?_last (name : String)
    (h : value? (modeOf name) fuel level cs = value.map (·, '\x7d' :: rest)) :
    members? mode modeOf (fuel + 1) level (quoted name ++ ':' :: cs) =
      value.map fun x => ([(name, x)], rest) := by
  obtain ⟨next, hstep, hlast, -⟩ := exists_members?_quoted name cs
  rw [hstep, h]
  cases value with
  | none => rfl
  | some x => exact hlast x rest

/-- A member in front of others. -/
theorem members?_more (name : String)
    (h : value? (modeOf name) fuel level cs = value.map (·, ',' :: more)) :
    members? mode modeOf (fuel + 1) level (quoted name ++ ':' :: cs) =
      value.bind fun x =>
        (members? mode modeOf fuel level more).map fun xs => ((name, x) :: xs.1, xs.2) := by
  obtain ⟨next, hstep, -, hmore⟩ := exists_members?_quoted name cs
  rw [hstep, h]
  cases value with
  | none => rfl
  | some x => exact hmore x more

end Text.Json

/-! ## Trees -/

namespace Child

variable {space rest : List Char} {numeral : Float → List Char} {modeOf : String → Json.Mode}
  {fuel level : Nat}

/-- The doubles in a slot are finite and written as what stands for them. -/
def Written (numeral : Float → List Char) (slots : List Child) : Prop :=
  ∀ x, .float x ∈ slots → x.isInf = false ∧ Numeral (numeral x) x

theorem exists_intText_eq (v : Int) :
    ∃ d ds, intText v = d :: ds ∧ (d.isDigit ∨ d = '-') := by
  unfold intText
  split
  · exact ⟨'-', _, rfl, .inr rfl⟩
  · obtain ⟨d, ds, hds, hd⟩ := Decimal.exists_toDigits_eq_cons v.natAbs
    exact ⟨d, ds, hds, .inl (hd d List.mem_cons_self)⟩

/-- The text of a slot starts with what is no space and closes no list. -/
theorem exists_json_eq (space : List Char) (c : Child) (h : Written numeral c.parts) :
    ∃ d ds, c.json space numeral = d :: ds ∧ isSpace d = false ∧ d ≠ ']' := by
  have hnumber {w : List Char} : (∃ d ds, w = d :: ds ∧ (d.isDigit ∨ d = '-')) →
      ∃ d ds, w = d :: ds ∧ isSpace d = false ∧ d ≠ ']' := by
    rintro ⟨d, ds, rfl, hd⟩
    exact ⟨d, ds, rfl, isSpace_numberHead hd, ne_of_numberHead hd (by decide)⟩
  cases c with
  | node tag cs => exact ⟨'\x7b', _, by rw [json], rfl, by decide⟩
  | int v => rw [json]; exact hnumber (exists_intText_eq v.toInt)
  | float v => rw [json]; exact hnumber (h v List.mem_cons_self).2.exists_eq
  | text s => exact ⟨'"', _, by rw [json]; rfl, rfl, by decide⟩
  | absent => exact ⟨'n', _, by rw [json]; rfl, rfl, by decide⟩

theorem node_json_append (space : List Char) (numeral : Float → List Char) (tag : String)
    (cs : List Child) (rest : List Char) :
    (Child.node tag cs).json space numeral ++ rest =
      '\x7b' :: (fieldsJson space tag ++
        '[' :: (jsonAll space numeral cs ++ ']' :: '\x7d' :: rest)) := by
  simp [json]

theorem length_json_node (space : List Char) (numeral : Float → List Char) (tag : String)
    (cs : List Child) :
    (jsonAll space numeral cs).length + 6 ≤ ((Child.node tag cs).json space numeral).length := by
  simp only [json, fieldsJson, quoted, List.length_append, List.length_cons]
  omega

theorem exists_jsonAll_eq (space : List Char) (c : Child) (cs : List Child)
    (h : Written numeral (partsAll (c :: cs))) :
    ∃ d ds, jsonAll space numeral (c :: cs) = d :: ds ∧ isSpace d = false ∧ d ≠ ']' := by
  obtain ⟨d, ds, hjson, hd⟩ := exists_json_eq space c
    fun x hx => h x (List.mem_append_left _ hx)
  cases cs with
  | nil => exact ⟨d, ds, by rw [jsonAll, hjson], hd⟩
  | cons => exact ⟨d, _, by rw [jsonAll, hjson, List.cons_append]; exact nofun, hd⟩

/-- The list of the children of a tree. -/
theorem value?_children {cs : List Child} (h : Written numeral (partsAll cs))
    (hitems : cs ≠ [] → items? .read fuel (level - 1) (jsonAll space numeral cs ++ ']' :: rest) =
      if 2 * depthAll cs ≤ level - 1 then some (valueAll cs, rest) else none) :
    value? .read (fuel + 1) level ('[' :: (jsonAll space numeral cs ++ ']' :: rest)) =
      (if 2 * depthAll cs + 1 ≤ level then some (.list (valueAll cs)) else none).map (·, rest) := by
  cases cs with
  | nil =>
    rw [jsonAll, List.nil_append, value?_empty, depthAll, valueAll]
    cases level <;> rfl
  | cons c cs =>
    obtain ⟨d, ds, hjson, hd, hclose⟩ := exists_jsonAll_eq space c cs h
    have hitems := hitems (List.cons_ne_nil c cs)
    rw [hjson, List.cons_append] at hitems ⊢
    rw [value?_items hd hclose, hitems]
    split
    case isTrue hzero => rw [if_neg (by omega), Option.map_none]
    case isFalse hpos =>
      by_cases hdepth : 2 * depthAll (c :: cs) + 1 ≤ level
      · rw [if_pos hdepth, if_pos (by omega), Option.map_some, Option.map_some]
      · rw [if_neg hdepth, if_neg (by omega), Option.map_none, Option.map_none]

/-- The members of the object for a tree, whoever asks for them. -/
theorem members?_fields {cs : List Child} (modeOf : String → Json.Mode) (level : Nat)
    (tag : String) (hspace : ∀ c ∈ space, isSpace c) (hchildren : modeOf "children" = .read)
    (h : Written numeral (partsAll cs))
    (hitems : cs ≠ [] →
      items? .read fuel (level - 1) (jsonAll space numeral cs ++ ']' :: '\x7d' :: rest) =
        if 2 * depthAll cs ≤ level - 1 then some (valueAll cs, '\x7d' :: rest) else none) :
    members? .read modeOf (fuel + 3) level
        (fieldsJson space tag ++ '[' :: (jsonAll space numeral cs ++ ']' :: '\x7d' :: rest)) =
      if 2 * depthAll cs + 1 ≤ level then
        some ([("type", .text tag), ("children", .list (valueAll cs))], rest)
      else none := by
  have hlist := value?_children h hitems
  let list := '[' :: (jsonAll space numeral cs ++ ']' :: '\x7d' :: rest)
  let more := space ++ (quoted "children" ++ ':' :: (space ++ list))
  have hchildren : members? .read modeOf (fuel + 2) level more =
      (if 2 * depthAll cs + 1 ≤ level then some (.list (valueAll cs)) else none).map
        fun x => ([("children", x)], rest) := by
    rw [members?_space hspace]
    refine members?_last "children" ?_
    rw [hchildren, value?_space hspace, hlist]
  have htag : value? (modeOf "type") (fuel + 2) level (space ++ (quoted tag ++ ',' :: more)) =
      (some (Json.text tag)).map (·, ',' :: more) := by
    rw [value?_space hspace, value?_quoted]
    rfl
  have htext : fieldsJson space tag ++ list =
      quoted "type" ++ ':' :: (space ++ (quoted tag ++ ',' :: more)) := by
    simp [fieldsJson, more]
  rw [htext, members?_more "type" htag, hchildren, Option.bind_some]
  split <;> rfl

mutual

/-- A slot is read as what it was written for if its brackets may be opened. -/
theorem value?_json (hspace : ∀ c ∈ space, isSpace c) : ∀ (c : Child) (fuel level : Nat)
    (rest : List Char), Written numeral c.parts → (c.json space numeral).length < fuel →
    Stops rest →
    value? .read fuel level (c.json space numeral ++ rest) =
      (if 2 * c.depth ≤ level then some c.value else none).map (·, rest)
  | .node tag cs, fuel, level, rest, h, hf, hr => by
    have hlength := length_json_node space numeral tag cs
    obtain ⟨fuel, rfl⟩ : ∃ f, fuel = f + 4 := ⟨fuel - 4, by omega⟩
    have hcs : Written numeral (partsAll cs) := fun x hx => h x (List.mem_cons_of_mem _ hx)
    have hfields := members?_fields (fun _ => .read) (level - 1) tag hspace rfl hcs
      (items?_jsonAll hspace cs fuel _ ('\x7d' :: rest) hcs (by omega))
    obtain ⟨ds, hds⟩ : ∃ ds, fieldsJson space tag = '"' :: ds := ⟨_, rfl⟩
    rw [node_json_append, hds, List.cons_append, value?_members, ← List.cons_append, ← hds, hfields,
      Child.depth, value]
    by_cases hdepth : 2 * (depthAll cs + 1) ≤ level
    · rw [if_neg (by omega), if_pos hdepth, if_pos (by omega), Option.map_some, Option.map_some]
    · have hfields : ¬2 * depthAll cs + 1 ≤ level - 1 := by omega
      rw [if_neg hdepth, if_neg hfields, Option.map_none, Option.map_none, ite_self]
  | .int v, fuel + 1, level, rest, h, hf, hr => by
    rw [json, value?_number (exists_intText_eq v.toInt), number?_intText v hr]
    rfl
  | .float v, fuel + 1, level, rest, h, hf, hr => by
    obtain ⟨hfinite, hnumeral⟩ := h v List.mem_cons_self
    rw [json, value?_number hnumeral.exists_eq, number?_numeral hnumeral hfinite hr]
    rfl
  | .text s, fuel + 1, level, rest, h, hf, hr => by
    rw [json, value?_quoted]
    rfl
  | .absent, fuel + 1, level, rest, h, hf, hr => by
    rw [json, value?_null]
    rfl

/-- Slots are read up to the bracket that closes their list. -/
theorem items?_jsonAll (hspace : ∀ c ∈ space, isSpace c) : ∀ (cs : List Child)
    (fuel level : Nat) (rest : List Char), Written numeral (partsAll cs) →
    (jsonAll space numeral cs).length + 1 < fuel → cs ≠ [] →
    items? .read fuel level (jsonAll space numeral cs ++ ']' :: rest) =
      if 2 * depthAll cs ≤ level then some (valueAll cs, rest) else none
  | [], _, _, _, _, _, hne => absurd rfl hne
  | [c], fuel + 1, level, rest, h, hf, _ => by
    rw [jsonAll] at hf ⊢
    have hc := value?_json hspace c fuel level (']' :: rest)
      (fun x hx => h x (List.mem_append_left _ hx)) (by omega) ⟨']', rest, rfl, .inr rfl⟩
    rw [items?_last hc, depthAll, depthAll, Nat.max_zero, valueAll, valueAll]
    split <;> rfl
  | c :: d :: cs, fuel + 1, level, rest, h, hf, _ => by
    let more := space ++ (jsonAll space numeral (d :: cs) ++ ']' :: rest)
    simp only [jsonAll, List.length_append, List.length_cons] at hf
    have hc := value?_json hspace c fuel level (',' :: more)
      (fun x hx => h x (List.mem_append_left _ hx)) (by omega) ⟨',', more, rfl, .inl rfl⟩
    have hcs := items?_jsonAll hspace (d :: cs) fuel level rest
      (fun x hx => h x (List.mem_append_right _ hx)) (by omega) (List.cons_ne_nil d cs)
    have htext : jsonAll space numeral (c :: d :: cs) ++ ']' :: rest =
        json space numeral c ++ ',' :: more := by
      simp [jsonAll, more]
    rw [htext, items?_more hc, items?_space hspace, hcs, depthAll.eq_2 c, valueAll.eq_2 c]
    by_cases hdepth : 2 * c.depth ≤ level
    · rw [if_pos hdepth, Option.bind_some]
      by_cases hdepths : 2 * depthAll (d :: cs) ≤ level
      · rw [if_pos hdepths, if_pos (by omega), Option.map_some]
      · rw [if_neg hdepths, if_neg (by omega), Option.map_none]
    · rw [if_neg hdepth, Option.bind_none, if_neg (by omega)]

end

end Child

namespace Tree

variable {space : List Char} {numeral : Float → List Char} {t : Tree}

/-- The JSON text of a tree. -/
def json (space : List Char) (numeral : Float → List Char) (t : Tree) : String :=
  String.ofList (t.toChild.json space numeral)

/-- A tree that holds one double. -/
def single (x : Float) : Tree := ⟨"float", [.float x]⟩

end Tree

end Garnet
