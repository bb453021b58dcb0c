import Garnet.Proofs.Hashes.Pairs

/-!
# Texts as keys

A text that is a key of a hash is changed in place like any other, and the key with it. `[]=` and
`store` copy the text they are given, so that only the copy is a key; a literal and the operations
that make a hash out of entries do not.
-/

namespace Garnet

open Relation

namespace Store

variable {s t : Store} {a b k v : Value}

/-! ## Texts that are keys -/

/-- Whatever this text is changed to in place, the texts of the keys of a hash stay what they
are. -/
def Isolated (s : Store) (h key : Value) : Prop :=
  ∀ x, ∀ k ∈ s.keys h, ((Change.setText key x).apply s).text? k = s.text? k

theorem text?_setText_of_ne {x : String} (hk : k ≠ v) :
    ((Change.setText v x).apply s).text? k = s.text? k := by
  rw [text?, payload, Change.apply, object_modifyObject, if_neg fun h => hk h.1]
  rfl

theorem text?_setText_self {x y : String} (hv : s.text? v = some y) :
    ((Change.setText v x).apply s).text? v = some x := by
  have hobject : (s.object v).payload = .text y := text?_eq_some.mp hv
  have hlt : v.index < s.objects.size := index_lt_of_payload s hobject nofun
  rw [text?, payload, Change.apply, object_modifyObject, if_pos ⟨rfl, hlt⟩, hobject]

theorem isolated_iff {x : String} (hkey : s.text? k = some x) :
    s.Isolated v k ↔ k ∉ s.keys v := by
  refine ⟨fun h hk => ?_, fun h y w hw => ?_⟩
  · have hsame := h (x ++ "!") k hk
    rw [text?_setText_self hkey, hkey] at hsame
    have hlength := congrArg String.length (Option.some.inj hsame)
    rw [String.length_append] at hlength
    exact absurd hlength (Nat.succ_ne_self _)
  · exact text?_setText_of_ne fun he => h (he ▸ hw)

/-! ## What becomes of a text that is given for a key -/

theorem payload_of_hash? (hv : (s.hash? v).isSome) : ∃ h, s.payload v = .hash h :=
  (Option.isSome_iff_exists.mp hv).imp fun _ => hash?_eq_some.mp

theorem hash?_of_kind (h : (t.payload v).kind = (s.payload v).kind) (hv : (s.hash? v).isSome) :
    (t.hash? v).isSome := by
  obtain ⟨d, hd⟩ := payload_of_hash? hv
  rw [hd] at h
  unfold hash?
  cases hp : t.payload v with
  | hash => rfl
  | _ => rw [hp] at h; cases h

theorem keys_insert {x : Value} (hv : (s.hash? v).isSome) (hk : k.index < s.objects.size) :
    ((Change.editHash v (.insert k x)).apply s).keys v =
      if ∃ a ∈ s.keys v, s.keyEql a k = true then s.keys v else s.keys v ++ [k] := by
  obtain ⟨h, hp⟩ := payload_of_hash? hv
  have hkeys : s.keys v = h.table.keys := congrArg Payload.keys hp
  rw [keys, payload_editHash hp, HashEdit.apply, if_pos hk, hkeys]
  split
  · exact Table.keys_insert_of_eql ‹_›
  · rename_i hin
    refine Table.keys_insert_of_forall fun a ha => ?_
    exact Bool.eq_false_iff.mpr fun heql => hin ⟨a, ha, heql⟩

theorem text?_editHash {e : HashEdit} :
    ((Change.editHash v e).apply s).text? k = s.text? k := by
  refine Option.ext fun x => ?_
  rw [text?_eq_some, text?_eq_some]
  refine iff_of_eq (keep_modifyObject (fun o => o.payload = .text x) ?_)
  cases hp : (s.object v).payload <;> simp only [hp, reduceCtorEq]

theorem index_lt_of_text? {y : String} (hk : s.text? k = some y) : k.index < s.objects.size :=
  index_lt_of_payload s (text?_eq_some.mp hk) nofun

/-- A text that a hash is given for a key becomes the key, unless there is an equal one. -/
theorem isolated_insert {x : Value} {y : String} (hv : (s.hash? v).isSome)
    (hk : s.text? k = some y) :
    ((Change.editHash v (.insert k x)).apply s).Isolated v k ↔
      k ∉ s.keys v ∧ ∃ a ∈ s.keys v, s.keyEql a k = true := by
  rw [isolated_iff (text?_editHash.trans hk), keys_insert hv (index_lt_of_text? hk)]
  split
  · rename_i hin
    exact ⟨fun h => ⟨h, hin⟩, And.left⟩
  · rename_i hin
    exact iff_of_false (fun h => h (List.mem_append_right _ List.mem_cons_self))
      fun h => hin h.2

end Store

namespace Eval

open Store

variable {s t u : Store} {h key x : Value} {y : String} {e : Engine} {ke ve : Expr}

/-- A literal gives its hash the key itself. -/
theorem fillHash_run (hkey : (eval ke).run e s = .ok key t) (hvalue : (eval ve).run e t = .ok x u)
    (rest : List (Expr × Expr)) :
    (fillHash h ((ke, ve) :: rest)).run e s =
      (fillHash h rest).run e ((Change.editHash h (.insert key x)).apply u) := by
  have hinsert : (liftM (insertEntry h key x) : Eval Unit).run e u =
      .ok () ((Change.editHash h (.insert key x)).apply u) := rfl
  simp only [fillHash, bind, Act.run, hkey, hvalue, hinsert]

/-- So do the operations that make a hash out of the entries of others. -/
theorem fill_run {change : Value × Value → Op (Value × Value)} {entry : Value × Value}
    (hentry : (change entry).run e s = .ok (key, x) t) (rest : List (Value × Value)) :
    (Library.Hashes.fill h change (entry :: rest)).run e s =
      (Library.Hashes.fill h change rest).run e
        ((Change.editHash h (.insert key x)).apply t) := by
  have hinsert : (insertEntry h key x).run e t =
      .ok () ((Change.editHash h (.insert key x)).apply t) := rfl
  simp only [Library.Hashes.fill, List.forM, bind, Act.run, hentry, hinsert]

/-- `[]=` and `store` give it a new text. -/
theorem set_run (hkey : s.text? key = some y) (block : Option Value) :
    (Library.Hashes.set h [key, x] block).run e s =
      .ok x ((Change.editHash h (.insert ⟨s.objects.size⟩ x)).apply
        (s.alloc { cls := CoreClass.string.value, payload := .text y }).2) := by
  simp only [Library.Hashes.set, twoArgs, view, newText, newObject, alloc, make, bind, Act.run,
    hkey, pure, insertEntry, update]
  rfl

end Eval

namespace Store

open Eval

variable {config : Config} {input : List String} {s t : Store}

theorem hash?_of_run {ℓ : Layer} {α : Type} {n : Nat} {x : Act ℓ α} {a : α} {v : Value}
    (hx : x.run (.ofFuel n) s = .ok a t) (hv : (s.hash? v).isSome) : (t.hash? v).isSome := by
  obtain ⟨d, hd⟩ := payload_of_hash? hv
  have hkept := Lasting.kind.kept.outcome_ok (p := ⟨n, x, s⟩) hx
  exact hash?_of_kind (hkept.2 v (index_lt_of_payload s hd nofun)) hv

/-- A text given to `[]=` is copied: a key that was not there is made just now, and no change of the
text, at whatever moment, changes this key. -/
theorem set_isolated {h k x : Value} {y : String} (hh : (s.hash? h).isSome)
    (hk : s.text? k = some y) (e : Engine) (block : Option Value) :
    ∃ t, (Library.Hashes.set h [k, x] block).run e s = .ok x t ∧
      (∀ a ∈ t.keys h, a ∈ s.keys h ∨ s.objects.size ≤ a.index ∧ t.text? a = some y ∧
        ∀ w z, ((Change.setText k z).apply w).text? a = w.text? a) ∧
      (t.Isolated h k ↔ k ∉ s.keys h) := by
  refine ⟨_, set_run hk block, ?_⟩
  obtain ⟨d, hd⟩ := payload_of_hash? hh
  have hlt : h.index < s.objects.size := index_lt_of_payload s hd nofun
  have hklt : k.index < s.objects.size := index_lt_of_text? hk
  generalize ho : ({ cls := CoreClass.string.value, payload := .text y } : Object) = o
  have hsize : s.objects.size < (s.alloc o).2.objects.size := size_alloc o
  have hhash : ((s.alloc o).2.hash? h).isSome := by
    rw [hash?, payload, object_alloc_of_lt s o hlt]
    exact hh
  have hold : (s.alloc o).2.text? k = some y := by
    rw [text?, payload, object_alloc_of_lt s o hklt]
    exact hk
  have hnew : (s.alloc o).2.text? ⟨s.objects.size⟩ = some y := by
    rw [text?, payload, object_alloc, ← ho]
  have hkeys : (s.alloc o).2.keys h = s.keys h := keys_alloc (ho ▸ rfl)
  rw [isolated_iff (text?_editHash.trans hold),
    keys_insert (k := ⟨s.objects.size⟩) hhash hsize, hkeys]
  split
  · exact ⟨fun a ha => .inl ha, .rfl⟩
  · have hne : k ≠ ⟨s.objects.size⟩ := fun he => Nat.ne_of_lt hklt (congrArg Value.index he)
    refine ⟨fun a ha => (List.mem_append.mp ha).imp_right fun ha => ?_, ?_⟩
    · rw [List.mem_singleton.mp ha]
      exact ⟨Nat.le_refl _, text?_editHash.trans hnew, fun w z => text?_setText_of_ne hne.symm⟩
    · rw [List.mem_append, List.mem_singleton, or_iff_left hne]

/-- One change in place makes a text that is a key equal to another one. -/
theorem keyEql_setText {x y : String} (ha : s.text? a = some x) (hb : s.text? b = some y) :
    ((Change.setText a y).apply s).keyEql a b = true := by
  have hpos : 0 < ((Change.setText a y).apply s).objects.size := by
    rw [Change.apply, size_modifyObject]
    exact Nat.zero_lt_of_lt (index_lt_of_text? ha)
  obtain ⟨n, hn⟩ := keyEql_eq (a := a) (b := b) hpos
  have hnew : ((Change.setText a y).apply s).payload a = .text y :=
    text?_eq_some.mp (text?_setText_self ha)
  have hother : ((Change.setText a y).apply s).payload b = .text y := by
    by_cases hba : b = a
    · rw [hba, hnew]
    · exact text?_eq_some.mp ((text?_setText_of_ne hba).trans hb)
  rw [hn, keyEqlWithin, hnew, hother]
  simp only [beq_self_eq_true, Bool.or_true]

/-- At each moment of a session, two keys of one hash that are equal were not when the later one was
stored; since then one of them, a text, has been changed in place, or both are arrays. One such
change is enough. No change of a text that is given to `[]=` or `store` changes a key, unless the
text itself was a key already. A literal and the operations that make a hash out of entries store
the text itself, unless an equal key is there. -/
theorem keys_apart (h : ReflTransGen Leads (start config input) t) :
    (∀ v, (t.keys v).Pairwise fun a b => t.keyEql a b = true →
      (t.array? a).isSome ∧ (t.array? b).isSome ∨
        ∃ s u, ReflTransGen Leads (start config input) s ∧ Leads s u ∧ s.Joins u a b ∧
          ReflTransGen Leads u t ∧ (Rewritten s t a ∨ Rewritten s t b)) ∧
    (∀ v a b x y, [a, b].Sublist (t.keys v) → t.text? a = some x → t.text? b = some y →
      [a, b].Sublist (((Change.setText a y).apply t).keys v) ∧
        ((Change.setText a y).apply t).keyEql a b = true) ∧
    (∀ v k x y e block, (t.hash? v).isSome → t.text? k = some y →
      ∃ u, (Library.Hashes.set v [k, x] block).run e t = .ok x u ∧
        (∀ a ∈ u.keys v, a ∈ t.keys v ∨ t.objects.size ≤ a.index ∧ u.text? a = some y ∧
          ∀ w z, ((Change.setText k z).apply w).text? a = w.text? a) ∧
        (u.Isolated v k ↔ k ∉ t.keys v)) ∧
    (∀ v ke ve rest n k x y u u', (t.hash? v).isSome → (eval ke).run (.ofFuel n) t = .ok k u →
      (eval ve).run (.ofFuel n) u = .ok x u' → u'.text? k = some y →
        ∃ w, (fillHash v ((ke, ve) :: rest)).run (.ofFuel n) t =
            (fillHash v rest).run (.ofFuel n) w ∧
          (w.Isolated v k ↔ k ∉ u'.keys v ∧ ∃ a ∈ u'.keys v, u'.keyEql a k = true)) ∧
    (∀ v change entry rest n k x y u, (t.hash? v).isSome →
      (change entry).run (.ofFuel n) t = .ok (k, x) u → u.text? k = some y →
        ∃ w, (Library.Hashes.fill v change (entry :: rest)).run (.ofFuel n) t =
            (Library.Hashes.fill v change rest).run (.ofFuel n) w ∧
          (w.Isolated v k ↔ k ∉ u.keys v ∧ ∃ a ∈ u.keys v, u.keyEql a k = true)) := by
  refine ⟨pairwise_keys h, fun v a b x y hab ha hb => ⟨?_, keyEql_setText ha hb⟩,
    fun v k x y e block hv hk => set_isolated hv hk e block,
    fun v ke ve rest n k x y u u' hv hkey hvalue hk => ?_,
    fun v change entry rest n k x y u hv hentry hk => ?_⟩
  · rw [keys_setText]
    exact hab
  · have hv' : (u'.hash? v).isSome := hash?_of_run hvalue (hash?_of_run hkey hv)
    exact ⟨_, fillHash_run hkey hvalue rest, isolated_insert hv' hk⟩
  · have hv' : (u.hash? v).isSome := hash?_of_run hentry hv
    exact ⟨_, fill_run hentry rest, isolated_insert hv' hk⟩

/-- A hash and a text can be made. -/
theorem newHash_newText_run (s : Store) (y : String) (e : Engine) :
    ∃ t, (newHash >>= fun _ => newText y : Op Value).run e s = .ok ⟨s.objects.size + 1⟩ t ∧
      (t.hash? ⟨s.objects.size⟩).isSome ∧ t.text? ⟨s.objects.size + 1⟩ = some y ∧
      t.keys ⟨s.objects.size⟩ = [] := by
  generalize ho : ({ cls := CoreClass.hash.value, payload := .hash {} } : Object) = o
  have hsize : (s.alloc o).2.objects.size = s.objects.size + 1 := Array.size_push _
  refine ⟨((s.alloc o).2.alloc { cls := CoreClass.string.value, payload := .text y }).2, ?_⟩
  have hhash : ((s.alloc o).2.alloc { cls := CoreClass.string.value, payload := .text y }).2.payload
      ⟨s.objects.size⟩ = .hash {} := by
    rw [payload, object_alloc_of_lt _ _ (hsize ▸ Nat.lt_succ_self _), object_alloc, ← ho]
  refine ⟨?_, ?_, ?_, ?_⟩
  · rw [← hsize, ← ho]
    rfl
  · rw [hash?, hhash]
    rfl
  · rw [← hsize, text?, payload, object_alloc]
  · rw [keys, hhash]
    rfl

/-- A text given to `[]=` can be changed without harm, and one given to a hash in an entry cannot.
-/
theorem keys_apart_given :
    ∃ t h k, ReflTransGen Leads (start {} []) t ∧ t.text? k = some "a" ∧
      (∃ u, (Library.Hashes.set h [k, .nil] none).run (.ofFuel 0) t = .ok .nil u ∧
        u.Isolated h k) ∧
      ∃ u, (Library.Hashes.fill h pure [(k, .nil)]).run (.ofFuel 0) t =
          (Library.Hashes.fill h pure []).run (.ofFuel 0) u ∧ ¬u.Isolated h k := by
  obtain ⟨t, hrun, hh, hk, hkeys⟩ := newHash_newText_run (start {} []) "a" (.ofFuel defaultFuel)
  have hends := Leads.ends (p := ⟨defaultFuel,
    (.lift (newHash >>= fun _ => newText "a") rfl : Eval Value), start {} []⟩) (.operation .start)
  have hmade : ReflTransGen Leads (start {} []) t :=
    .single (Eq.mp (congrArg (fun o => Leads (start {} []) o.store) hrun) hends)
  obtain ⟨-, -, hset, -, hfill⟩ := keys_apart hmade
  obtain ⟨u, hu, -, hiso⟩ := hset _ _ .nil _ (.ofFuel 0) none hh hk
  have hentry (k : Value) : (pure (k, .nil) : Op (Value × Value)).run (.ofFuel 0) t =
      .ok (k, .nil) t := rfl
  obtain ⟨w, hw, hiso'⟩ := hfill _ pure _ [] 0 _ .nil _ t hh (hentry _) hk
  refine ⟨t, _, _, hmade, hk, ⟨u, hu, hiso.mpr ?_⟩, w, hw, fun h => ?_⟩
  · rw [hkeys]
    exact List.not_mem_nil
  · obtain ⟨-, a, ha, -⟩ := hiso'.mp h
    rw [hkeys] at ha
    cases ha

end Store

end Garnet
