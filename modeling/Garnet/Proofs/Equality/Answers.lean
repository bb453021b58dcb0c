import Garnet.Proofs.Equality.Data

/-!
# Equality of data

On data the comparison always comes to an answer, which says whether they are built alike. So
equality is an equivalence there, it is coarser than the equality of keys, and it takes hashes for
finite maps.
-/

namespace Garnet

/-! ## What is told -/

namespace Eval

variable {s : Store} {e : Engine} {r : Value → Value → Prop} {a b : Value} {n : Nat}

/-- The action leaves the store as it is, and tells whether `P`. -/
def Tells (x : Op Bool) (e : Engine) (s : Store) (P : Prop) : Prop :=
  ∃ r, x.run e s = .ok r s ∧ (r = true ↔ P)

theorem allEqual_tells {xs ys : List Value}
    (h : ∀ x ∈ xs, ∀ y ∈ ys, Tells (equals x y) e s (r x y)) :
    Tells (Library.Arrays.allEqual xs ys) e s (List.Forall₂ r xs ys) := by
  induction xs generalizing ys with
  | nil =>
    cases ys with
    | nil => exact ⟨true, rfl, iff_of_true rfl .nil⟩
    | cons y ys => exact ⟨false, rfl, iff_of_false Bool.false_ne_true nofun⟩
  | cons x xs ih =>
    cases ys with
    | nil => exact ⟨false, rfl, iff_of_false Bool.false_ne_true nofun⟩
    | cons y ys =>
      obtain ⟨head, hhead, hxy⟩ := h x List.mem_cons_self y List.mem_cons_self
      obtain ⟨rest, hrest, hall⟩ := ih fun x hx y hy =>
        h x (List.mem_cons_of_mem _ hx) y (List.mem_cons_of_mem _ hy)
      simp only [Tells, Library.Arrays.allEqual, bind, Act.run, hhead, List.forall₂_cons, ← hxy,
        ← hall]
      cases head with
      | false => exact ⟨false, rfl, iff_of_false Bool.false_ne_true (Bool.false_ne_true ∘ And.left)⟩
      | true => exact ⟨rest, hrest, (and_iff_right rfl).symm⟩

theorem sameItems_tells {xs ys : Array Value}
    (h : ∀ x ∈ xs.toList, ∀ y ∈ ys.toList, Tells (equals x y) e s (r x y)) :
    Tells (Library.Arrays.sameItems xs ys) e s (List.Forall₂ r xs.toList ys.toList) := by
  unfold Library.Arrays.sameItems
  by_cases hsize : xs.size = ys.size
  · rw [if_pos (beq_iff_eq.mpr hsize)]
    exact allEqual_tells h
  · rw [if_neg (mt beq_iff_eq.mp hsize)]
    exact ⟨false, rfl, iff_of_false Bool.false_ne_true fun hall => hsize hall.length_eq⟩

theorem allIn_tells (h : Value) (pairs : List (Value × Value))
    (hvalues : ∀ p ∈ pairs, ∀ w, (s.entries h).get? s.keyEql p.1 = some w →
      Tells (equals p.2 w) e s (r p.2 w)) :
    Tells (Library.Hashes.allIn h pairs) e s
      (∀ p ∈ pairs, ∃ w, (s.entries h).get? s.keyEql p.1 = some w ∧ r p.2 w) := by
  induction pairs with
  | nil => exact ⟨true, rfl, iff_of_true rfl nofun⟩
  | cons p pairs ih =>
    obtain ⟨hp, hpairs⟩ := List.forall_mem_cons.mp hvalues
    simp only [Tells, Library.Hashes.allIn, lookupEntry, view, bind, Act.run, List.forall_mem_cons]
    cases hget : (s.entries h).get? s.keyEql p.1 with
    | none =>
      refine ⟨false, rfl, iff_of_false Bool.false_ne_true ?_⟩
      rintro ⟨⟨w, hw, -⟩, -⟩
      cases hw
    | some w =>
      obtain ⟨head, hhead, hpw⟩ := hp w hget
      obtain ⟨rest, hrest, hall⟩ := ih hpairs
      simp only [Act.run, hhead, Option.some.injEq, exists_eq_left', ← hpw, ← hall]
      cases head with
      | false => exact ⟨false, rfl, iff_of_false Bool.false_ne_true (Bool.false_ne_true ∘ And.left)⟩
      | true => exact ⟨rest, hrest, (and_iff_right rfl).symm⟩

/-! ### What the operations of the library answer -/

/-- The operation leaves the store as it is, and answers whether `P`. -/
def Answers (x : Op Value) (e : Engine) (s : Store) (P : Prop) : Prop :=
  ∃ r, x.run e s = .ok (.ofBool r) s ∧ (r = true ↔ P)

theorem array_equal_answers {xs : Array Value} (ha : s.payload a = .array xs)
    (h : ∀ ys, s.payload b = .array ys → ∀ x ∈ xs.toList, ∀ y ∈ ys.toList,
      Tells (equals x y) e s (r x y)) :
    Answers (Library.Arrays.equal a [b] none) e s
      (∃ ys, s.payload b = .array ys ∧ List.Forall₂ r xs.toList ys.toList) := by
  have harray : s.array? a = some xs := Store.array?_eq_some.mpr ha
  simp only [Answers, Library.Arrays.equal, Library.Arrays.itemsOf, oneArg, view, newBool, bind,
    pure, Act.run, ← Store.array?_eq_some]
  cases hb : s.array? b with
  | none =>
    refine ⟨false, rfl, iff_of_false Bool.false_ne_true ?_⟩
    rintro ⟨ys, hys, -⟩
    cases hys
  | some ys =>
    obtain ⟨same, hrun, hsame⟩ := sameItems_tells (h ys (Store.array?_eq_some.mp hb))
    refine ⟨same, ?_, hsame.trans (by simp only [Option.some.injEq, exists_eq_left'])⟩
    simp only [Act.run, harray, Option.getD_some, hrun]

theorem hash_equal_answers {d : HashData} (ha : s.payload a = .hash d)
    (h : ∀ d', s.payload b = .hash d' → ∀ p ∈ d.table.pairs, ∀ w,
      d'.table.get? s.keyEql p.1 = some w → Tells (equals p.2 w) e s (r p.2 w)) :
    Answers (Library.Hashes.equal a [b] none) e s
      (∃ d', s.payload b = .hash d' ∧ s.SameEntries r d.table d'.table) := by
  have hhash : s.hash? a = some d := Store.hash?_eq_some.mpr ha
  simp only [Answers, Library.Hashes.equal, oneArg, view, newBool, bind, pure, Act.run, hhash,
    ← Store.hash?_eq_some]
  cases hb : s.hash? b with
  | none =>
    refine ⟨false, rfl, iff_of_false Bool.false_ne_true ?_⟩
    rintro ⟨d', hd', -⟩
    cases hd'
  | some d' =>
    have hentries : s.entries b = d'.table := by rw [Store.entries, hb]; rfl
    simp only [Option.some.injEq, exists_eq_left', Store.SameEntries]
    by_cases hsize : d.table.size = d'.table.size
    · have hall := allIn_tells b d.table.pairs
        (hentries ▸ h d' (Store.hash?_eq_some.mp hb))
      rw [hentries] at hall
      obtain ⟨same, hrun, hsame⟩ := hall
      refine ⟨same, ?_, hsame.trans (and_iff_right hsize).symm⟩
      simp only [if_pos (beq_iff_eq.mpr hsize), Act.run, hrun]
    · refine ⟨false, ?_, iff_of_false Bool.false_ne_true (hsize ∘ And.left)⟩
      simp only [if_neg (mt beq_iff_eq.mp hsize), Act.run]

/-- What is data and no integer itself answers to an integer that it does not equal it. -/
theorem integer_refused {i : Int} {f : Native} (ha : s.payload a = .integer i)
    (hb : (s.payload b).IsData) (hother : ∀ j, s.payload b ≠ .integer j)
    (hf : (s.payload b).equalOp? = some f) : (f b [a] none).run e s = .ok .false s := by
  have hne : (b == a) = false := beq_false_of_ne fun h => hother i (h ▸ ha)
  cases hp : s.payload b with
  | nil | true | false =>
    rw [hp] at hf
    cases hf
    rw [identical_run, hne]
    rfl
  | integer j => exact absurd hp (hother j)
  | text t =>
    rw [hp] at hf
    cases hf
    rw [text_equal_run hp, Store.text?, ha]
    rfl
  | symbol t =>
    rw [hp] at hf
    cases hf
    rw [symbol_equal_run hp, Store.symbol?, ha]
    rfl
  | array xs =>
    rw [hp] at hf
    cases hf
    have harray : s.array? a = none := by rw [Store.array?, ha]
    simp only [Library.Arrays.equal, oneArg, view, newBool, bind, pure, Act.run, harray]
    rfl
  | hash d =>
    rw [hp] at hf
    cases hf
    have hhash : s.hash? a = none := by rw [Store.hash?, ha]
    simp only [Library.Hashes.equal, oneArg, view, newBool, bind, pure, Act.run, hhash]
    cases s.hash? b <;> rfl
  | _ => rw [hp] at hb; exact hb.elim

theorem exists_equalOp? {p : Payload} (hp : p.IsData) : ∃ f, p.equalOp? = some f := by
  cases p <;> first | exact ⟨_, rfl⟩ | exact hp.elim

/-- What has no parts answers to data that it is not compared with at once that it does not equal
it. An integer asks the other value. -/
theorem plain_refused {f : Native} (ha : (s.payload a).Plain) (hb : (s.payload b).IsData)
    (hplain : s.plainEqual? a b = none) (hf : (s.payload a).equalOp? = some f)
    (hsend : ∀ i, s.payload a = .integer i → (∀ j, s.payload b ≠ .integer j) →
      (send b "==" [a] none).run e s = .ok .false s) :
    (f a [b] none).run e s = .ok .false s := by
  rw [Store.plainEqual?] at hplain
  split at hplain
  · cases hplain
  cases hp : s.payload a with
  | nil | true | false => rw [hp] at hplain; cases hplain
  | text t =>
    rw [hp] at hf hplain
    cases hf
    have htext : s.text? b ≠ some t := fun h => by
      rw [Store.text?_eq_some.mp h] at hplain
      cases hplain
    rw [text_equal_run hp, beq_false_of_ne htext]
    rfl
  | symbol t =>
    rw [hp] at hf hplain
    cases hf
    have hsymbol : s.symbol? b ≠ some t := fun h => by
      rw [Store.symbol?_eq_some.mp h] at hplain
      cases hplain
    rw [symbol_equal_run hp, beq_false_of_ne hsymbol]
    rfl
  | integer i =>
    rw [hp] at hf hplain
    cases hf
    have hother (j : Int) : s.payload b ≠ .integer j := fun h => by
      rw [h] at hplain
      cases hplain
    have hrun := hsend i hp hother
    simp only [Library.Integers.equal, oneArg, payload, view, newBool, bind, pure, Act.run]
    split
    · rename_i j h
      exact absurd h (hother j)
    · rename_i x h
      rw [h] at hb
      exact hb.elim
    · simp only [Act.run, hrun]
      rfl
  | _ => rw [hp] at ha; exact ha.elim

end Eval

/-! ## Runs -/

namespace Store

variable {s t : Store} {v recv : Value} {name : String} {access : Access} {f : Native}

theorem findMethod_of_objects (h : t.objects = s.objects) :
    t.findMethod recv name access = s.findMethod recv name access := by
  have hlinks : SameLinks s t :=
    ⟨fun _ => link?_of_objects h, fun _ => by rw [object, object, h]⟩
  refine findMethod_congr (hlinks.chain (by rw [h]) ?_) fun holder => ?_
  · rw [classOf, object, h, ← object, ← classOf]
  · rw [tableOf_of_objects h]

theorem AnswersWith.of_objects (hs : s.AnswersWith v name f) (h : t.objects = s.objects) :
    t.AnswersWith v name f := by
  obtain ⟨r, i, hfind, hm, hf⟩ := hs
  exact ⟨r, i, (findMethod_of_objects h).trans hfind, hm, hf⟩

/-- The library answers `==` to all data. -/
def EqualsPlainly (s : Store) : Prop :=
  ∀ n v f, s.Built n v → (s.payload v).equalOp? = some f → s.AnswersWith v "==" f

end Store

namespace Eval

variable {s : Store} {r : Value → Value → Prop} {a b : Value} {d m n : Nat} {P : Prop}
  {f : Native}

/-- A message that the library answers, one level deeper. -/
theorem send_equal_run {out : Value} (ha : s.AnswersWith a "==" f) (hd : d < s.config.maxDepth)
    (hop : (f a [b] none).run (.ofFuel m) { s with depth := d + 1 } =
      .ok out { s with depth := d + 1 }) :
    (send a "==" [b] none).run (.ofFuel (m + 2)) { s with depth := d } =
      .ok out { s with depth := d } := by
  have hanswers : Store.AnswersWith { s with depth := d } a "==" f := ha.of_objects rfl
  obtain ⟨r, i, hfind, hm, hf⟩ := hanswers
  rw [send_run hfind hm hf, Engine.deeper, if_neg (Nat.not_le_of_lt hd)]
  dsimp only
  rw [hop]
  rfl

theorem truthy_ofBool (r : Bool) : (Value.ofBool r).truthy = r := by cases r <;> rfl

theorem send_equal_tells (ha : s.AnswersWith a "==" f) (hd : d < s.config.maxDepth)
    (hop : Answers (f a [b] none) (.ofFuel m) { s with depth := d + 1 } P) :
    Tells (do pure (← send a "==" [b] none).truthy) (.ofFuel (m + 2)) { s with depth := d } P := by
  obtain ⟨r, hrun, hr⟩ := hop
  refine ⟨r, ?_, hr⟩
  simp only [bind, pure, Act.run, send_equal_run ha hd hrun, truthy_ofBool]

theorem keyEql_of_depth (s : Store) (d : Nat) :
    Store.keyEql { s with depth := d } = s.keyEql := by
  funext k l
  exact Store.keyEqlWithin_of_objects (s := s) (t := { s with depth := d }) rfl
    s.objects.size k l

theorem plainEqual?_of_depth (s : Store) (d : Nat) (a b : Value) :
    Store.plainEqual? { s with depth := d } a b = s.plainEqual? a b := rfl

/-- On data the comparison tells whether they are built alike. -/
theorem equals_tells (hs : s.EqualsPlainly) (ha : s.Built n a) (hb : s.Built n b)
    (hm : 2 * (n + 1) ≤ m) (hd : d + n < s.config.maxDepth) :
    Tells (equals a b) (.ofFuel m) { s with depth := d } (s.Same n a b) := by
  induction n generalizing a b d m with
  | zero => cases ha
  | succ n ih =>
    unfold Tells
    rw [equals_run, plainEqual?_of_depth]
    cases hr : s.plainEqual? a b with
    | some r => exact ⟨r, rfl, Store.plainEqual?_iff ha.isData hb.isData hr⟩
    | none =>
      have hne : a ≠ b := fun hab => by
        rw [hab, s.plainEqual?_self] at hr
        cases hr
      obtain ⟨m, rfl⟩ : ∃ k, m = k + 2 := ⟨m - 2, by omega⟩
      -- parts are compared with the fuel and one level below the message
      have deeper {x y : Value} (hx : s.Built n x) (hy : s.Built n y) :
          Tells (equals x y) (.ofFuel m) { s with depth := d + 1 } (s.Same n x y) :=
        ih hx hy (by omega) (by omega)
      obtain ⟨f, hf⟩ := exists_equalOp? ha.isData
      refine send_equal_tells (hs _ _ f ha hf) (by omega) ?_
      have hkind := ha
      cases hkind with
      | plain hv =>
        refine ⟨false, plain_refused hv hb.isData hr hf fun i hi hother => ?_, ?_⟩
        · obtain ⟨g, hg⟩ := exists_equalOp? hb.isData
          obtain ⟨m, rfl⟩ : ∃ k, m = k + 2 := ⟨m - 2, by omega⟩
          exact send_equal_run (hs _ _ g hb hg) (by omega) (integer_refused hi hb.isData hother hg)
        · refine iff_of_false Bool.false_ne_true fun h => ?_
          rw [Store.Matches.plainEqual? h hv] at hr
          cases hr
      | array hv hitems =>
        rw [hv] at hf
        cases hf
        obtain ⟨r, hrun, hsame⟩ := array_equal_answers (s := { s with depth := d + 1 }) (b := b)
          (e := .ofFuel m) hv fun ys hys x hx y hy => deeper (hitems x hx) (hb.items hys y hy)
        refine ⟨r, hrun, hsame.trans ⟨?_, fun h => Store.Matches.array (s := s) h hv hne⟩⟩
        rintro ⟨ys, hys, hall⟩
        exact .keys (.arrays hv hys hall)
      | hash hv hapart _ hvalues =>
        rw [hv] at hf
        cases hf
        obtain ⟨r, hrun, hsame⟩ := hash_equal_answers (s := { s with depth := d + 1 }) (b := b)
          (r := s.Same n) (e := .ofFuel m) hv fun e he p hp w hw => by
            obtain ⟨k, hmem, -⟩ := Store.exists_of_get? hw
            exact deeper (hvalues p hp) ((hb.entries he).2 _ hmem)
        simp only [Store.SameEntries, keyEql_of_depth] at hsame
        refine ⟨r, hrun, hsame.trans ⟨?_, fun h => Store.Matches.hash (s := s) h hv hne⟩⟩
        rintro ⟨e, he, hall⟩
        exact .hashes hv he hapart (hb.entries he).1 hall

end Eval

/-! ## The laws of equality -/

namespace Store

variable {s : Store} {a b : Value} {k n : Nat}

/-- Data that are equal as keys are built alike. -/
theorem same_of_keyEql (ha : s.Built n a) (hb : s.Built n b)
    (h : s.keyEqlWithin k a b = true) : s.Same n a b := by
  induction n generalizing a b k with
  | zero => cases ha
  | succ n ih =>
    cases k with
    | zero => exact eq_of_beq h ▸ (s.same_equivalence (n + 1)).refl a
    | succ k =>
      refine .keys ?_
      cases keyEqlWithin_succ.mp h with
      | itself h => exact .itself h
      | integers hx hy => exact .integers hx hy
      | floats hx hy h => exact .floats hx hy h
      | texts hx hy => exact .texts hx hy
      | symbols hx hy => exact .symbols hx hy
      | arrays hx hy h =>
        rw [List.forall₂_iff_zip] at h
        refine .arrays hx hy (List.forall₂_iff_zip.mpr ⟨h.1, fun hmem => ?_⟩)
        obtain ⟨hxs, hys⟩ := List.of_mem_zip hmem
        exact ih (ha.items hx _ hxs) (hb.items hy _ hys) (h.2 hmem)

/-- Hashes are built alike if they are the same finite map. -/
theorem same_hash_iff {d e : HashData} (ha : s.Built (n + 1) a) (hb : s.Built (n + 1) b)
    (hd : s.payload a = .hash d) (he : s.payload b = .hash e) :
    s.Same (n + 1) a b ↔
      ∀ key, Option.Rel (s.Same n) (d.table.get? s.keyEql key) (e.table.get? s.keyEql key) := by
  have hda := (ha.entries hd).1
  have heb := (hb.entries he).1
  rw [← sameEntries_iff hda heb]
  refine ⟨fun h => ?_, fun h => .hashes hd he hda heb h⟩
  by_cases hab : a = b
  · subst hab
    cases hd.symm.trans he
    exact ⟨rfl, fun p hp => ⟨p.2, hda.get?_of_mem hp, (s.same_equivalence n).refl _⟩⟩
  · obtain ⟨e', he', hall⟩ := Matches.hash h hd hab
    cases he.symm.trans he'
    exact hall

/-- The comparison comes to the answer that two values are equal. -/
def Equal (s : Store) (m : Nat) (a b : Value) : Prop :=
  (Eval.equals a b).run (.ofFuel m) s = .ok true s

variable {m : Nat}

theorem equal_iff (hs : s.EqualsPlainly) (hm : 2 * (n + 1) ≤ m)
    (hd : s.depth + n < s.config.maxDepth) (ha : s.Built n a) (hb : s.Built n b) :
    s.Equal m a b ↔ s.Same n a b := by
  obtain ⟨r, hrun, hr⟩ := Eval.equals_tells hs ha hb hm hd
  rw [← hr, Equal]
  constructor
  · intro h
    cases hrun.symm.trans h
    rfl
  · rintro rfl
    exact hrun

theorem rel_congr {r q : Value → Value → Prop} {x y : Option Value}
    (h : ∀ v ∈ x, ∀ w ∈ y, r v w ↔ q v w) : Option.Rel r x y ↔ Option.Rel q x y := by
  cases x <;> cases y <;> simp_all

/-- On data of any height, with the fuel and the depth to compare them, the comparison always comes
to an answer; to be equal is an equivalence, and so is to be equal as a key, from which it follows;
two hashes are equal if they are the same finite map. -/
theorem equality_of_data (hs : s.EqualsPlainly) (hm : 2 * (n + 1) ≤ m)
    (hd : s.depth + n < s.config.maxDepth) :
    (∀ a b : { v // s.Built n v }, ∃ r, (Eval.equals a b).run (.ofFuel m) s = .ok r s) ∧
    (Equivalence fun a b : { v // s.Built n v } => s.Equal m a b) ∧
    (Equivalence fun a b => s.keyEql a b = true) ∧
    (∀ a b : { v // s.Built n v }, s.keyEql a b = true → s.Equal m a b) ∧
    ∀ a b : { v // s.Built n v }, ∀ d e, s.payload a = .hash d → s.payload b = .hash e →
      (s.Equal m a b ↔ ∀ key, Option.Rel (s.Equal m) (d.table.get? s.keyEql key)
        (e.table.get? s.keyEql key)) := by
  have hequal (a b : { v // s.Built n v }) : s.Equal m a b ↔ s.Same n a b :=
    equal_iff hs hm hd a.2 b.2
  have hsame := s.same_equivalence n
  refine ⟨fun a b => ?_, ⟨fun a => ?_, fun {a b} h => ?_, fun {a b c} hab hbc => ?_⟩,
    s.keyEql_equivalence, fun a b h => ?_, fun a b d e hda heb => ?_⟩
  · obtain ⟨r, hrun, -⟩ := Eval.equals_tells hs a.2 b.2 hm hd
    exact ⟨r, hrun⟩
  · exact (hequal a a).mpr (hsame.refl _)
  · exact (hequal b a).mpr (hsame.symm ((hequal a b).mp h))
  · exact (hequal a c).mpr (hsame.trans ((hequal a b).mp hab) ((hequal b c).mp hbc))
  · exact (hequal a b).mpr (same_of_keyEql a.2 b.2 h)
  · obtain ⟨a, ha⟩ := a
    obtain ⟨b, hb⟩ := b
    cases n with
    | zero => cases ha
    | succ n =>
      rw [equal_iff hs hm hd ha hb, same_hash_iff ha hb hda heb]
      refine forall_congr' fun key => rel_congr fun v hv w hw => ?_
      obtain ⟨_, hmem, -⟩ := exists_of_get? hv
      obtain ⟨_, hmem', -⟩ := exists_of_get? hw
      exact (equal_iff hs (by omega) (by omega) ((ha.entries hda).2 _ hmem)
        ((hb.entries heb).2 _ hmem')).symm

/-- Two hashes with the entries `2 => 7` and `7 => 2`, in different orders. -/
def twoMaps : Store where
  config := {}
  objects :=
    let equalBy (name : String) (i : Nat) : ModuleInfo :=
      { name, isModule := false, base := none, alloc := .none
        methods := ({} : MethodTable).insert "==" ⟨"==", .builtin i, false⟩ .pub }
    #[{ cls := ⟨0⟩, payload := .module (equalBy "Integer" 186) },
      { cls := ⟨1⟩, payload := .module (equalBy "Hash" 409) },
      { cls := ⟨0⟩, payload := .integer 2 }, { cls := ⟨0⟩, payload := .integer 7 },
      { cls := ⟨1⟩, payload := .hash { table := ⟨[⟨2⟩, ⟨3⟩], [⟨3⟩, ⟨2⟩], rfl⟩ } },
      { cls := ⟨1⟩, payload := .hash { table := ⟨[⟨3⟩, ⟨2⟩], [⟨2⟩, ⟨3⟩], rfl⟩ } }]
  scopes := #[]
  frames := []
  scopeStack := []

theorem equalsPlainly_twoMaps : twoMaps.EqualsPlainly := by
  have hinteger : Library.all[186]? =
      some (Entry.methods .integer ["==", "==="] Library.Integers.equal) := by
    rw [Library.all, List.getElem?_toArray]
    rfl
  have hhash : Library.all[409]? = some (Entry.method .hash "==" Library.Hashes.equal) := by
    rw [Library.all, List.getElem?_toArray]
    rfl
  rintro n ⟨i⟩ f hv hf
  have hdata := hv.isData
  rcases i with _ | _ | _ | _ | _ | _ | i
  case zero | succ.zero => exact hdata.elim
  case succ.succ.zero | succ.succ.succ.zero =>
    cases hf
    exact ⟨_, 186, rfl, rfl, Library.run_eq hinteger⟩
  case succ.succ.succ.succ.zero | succ.succ.succ.succ.succ.zero =>
    cases hf
    exact ⟨_, 409, rfl, rfl, Library.run_eq hhash⟩
  · have hobject : twoMaps.payload ⟨i + 6⟩ = .object := rfl
    rw [hobject] at hdata
    exact hdata.elim

theorem built_twoMaps : twoMaps.Built 2 ⟨4⟩ ∧ twoMaps.Built 2 ⟨5⟩ := by
  have hnumbers : ∀ v ∈ [(⟨2⟩ : Value), ⟨3⟩], twoMaps.Built 1 v := by
    rw [List.forall_mem_cons, List.forall_mem_singleton]
    exact ⟨.plain trivial, .plain trivial⟩
  constructor <;> refine .hash rfl ?_ (fun p hp => hnumbers _ ?_) fun p hp => hnumbers _ ?_
  case left.refine_1 | right.refine_1 =>
    unfold Apart
    decide
  all_goals
    revert p
    decide

/-- The two hashes are equal. -/
theorem equality_of_data_twoMaps :
    twoMaps.EqualsPlainly ∧ twoMaps.Built 2 ⟨4⟩ ∧ twoMaps.Built 2 ⟨5⟩ ∧
      twoMaps.Equal 6 ⟨4⟩ ⟨5⟩ := by
  obtain ⟨h4, h5⟩ := built_twoMaps
  have hequal := (equality_of_data (m := 6) equalsPlainly_twoMaps (Nat.le_refl 6) (by decide)).2.2.2.2
    ⟨⟨4⟩, h4⟩ ⟨⟨5⟩, h5⟩ _ _ rfl rfl
  refine ⟨equalsPlainly_twoMaps, h4, h5, hequal.mpr ?_⟩
  rw [← sameEntries_iff (h4.entries rfl).1 (h5.entries rfl).1]
  refine ⟨rfl, fun p hp => ⟨p.2, ?_, Eval.equals_self _ _ _⟩⟩
  revert p
  decide

end Store

end Garnet
