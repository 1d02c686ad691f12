import BoxedScheme.Proofs.Environments

/-!
# The bindings of the global environment

A symbol that is defined again keeps its old bindings behind the new one. The value of a symbol is found by stopping at
its first binding; the list of all bindings is made by leaving out those behind the first of each symbol and turning the
rest round. Both come to the same.

* `IsLatest defs i symbol value`, `DefinedBefore defs` : which definition of a symbol is its last, and the order of
  symbols by their last definitions;
* `lastOfEach defs` : the last definition of each symbol, in order;
* `Defined m defs` : the global frame of `m` was built by these definitions, the oldest first;
* `Defined.globalFrame` : what a definition does to the global frame, and so all of them;
* `globalBindings_lookup` : the list of bindings and the values of symbols.
-/

namespace BoxedScheme

/-! ## Definitions in order -/

/-- The definition at this position is the last one of the symbol. -/
def IsLatest (defs : List (Word × Word)) (i : Nat) (symbol value : Word) : Prop :=
  defs[i]? = some (symbol, value) ∧ ∀ j, i < j → ∀ v, defs[j]? ≠ some (symbol, v)

/-- The last definition of one symbol is older than that of another. -/
def DefinedBefore (defs : List (Word × Word)) (s t : Word) : Prop :=
  ∃ i j v w, i < j ∧ IsLatest defs i s v ∧ IsLatest defs j t w

def lastOfEach (defs : List (Word × Word)) : List (Word × Word) := (firstOfEach defs.reverse).reverse

section Order

variable {defs : List (Word × Word)} {i : Nat} {s t v w : Word}

theorem isLatest_append_self (defs : List (Word × Word)) (s v : Word) :
    IsLatest (defs ++ [(s, v)]) defs.length s v := by
  refine ⟨List.getElem?_concat_length, fun j hj w hw => ?_⟩
  have hlt := (List.getElem?_eq_some_iff.1 hw).1
  rw [List.length_append, List.length_singleton] at hlt
  omega

theorem IsLatest.lt (h : IsLatest defs i s v) : i < defs.length := (List.getElem?_eq_some_iff.1 h.1).1

/-- A definition of another symbol does not matter. -/
theorem IsLatest.append (h : IsLatest defs i s v) (hne : s ≠ t) (w : Word) : IsLatest (defs ++ [(t, w)]) i s v := by
  refine ⟨(List.getElem?_append_left h.lt).trans h.1, fun j hj u hu => ?_⟩
  by_cases hlt : j < defs.length
  · rw [List.getElem?_append_left hlt] at hu
    exact h.2 j hj u hu
  · have hmem : (s, u) ∈ [(t, w)] := by
      rw [List.getElem?_append_right (Nat.le_of_not_lt hlt)] at hu
      exact List.mem_of_getElem? hu
    exact hne (congrArg Prod.fst (List.mem_singleton.1 hmem))

theorem DefinedBefore.append (h : DefinedBefore defs s t) {u : Word} (hs : s ≠ u) (ht : t ≠ u) (w : Word) :
    DefinedBefore (defs ++ [(u, w)]) s t := by
  obtain ⟨i, j, v, v', hij, hi, hj⟩ := h
  exact ⟨i, j, v, v', hij, hi.append hs w, hj.append ht w⟩

/-- A new definition goes to the end and takes the place of the symbol's older one. -/
theorem lastOfEach_append (defs : List (Word × Word)) (s v : Word) :
    lastOfEach (defs ++ [(s, v)]) = (lastOfEach defs).filter (·.1 ≠ s) ++ [(s, v)] := by
  simp [lastOfEach, firstOfEach]

/-- What is listed for a symbol is its last definition. -/
theorem exists_isLatest (h : (s, v) ∈ lastOfEach defs) : ∃ i, IsLatest defs i s v := by
  induction defs using List.reverseRecOn with
  | nil => cases h
  | append_singleton defs d ih =>
    obtain ⟨t, w⟩ := d
    rw [lastOfEach_append, List.mem_append, List.mem_filter, List.mem_singleton] at h
    rcases h with ⟨hold, hne⟩ | heq
    · obtain ⟨i, hi⟩ := ih hold
      exact ⟨i, hi.append (by simpa using hne) w⟩
    · cases heq
      exact ⟨_, isLatest_append_self defs s v⟩

/-- Each symbol that is defined is listed. -/
theorem mem_keys_lastOfEach : s ∈ (lastOfEach defs).map Prod.fst ↔ s ∈ defs.map Prod.fst := by
  induction defs using List.reverseRecOn with
  | nil => exact Iff.rfl
  | append_singleton defs d ih =>
    rw [lastOfEach_append, List.map_append, List.map_append, List.mem_append, List.mem_append]
    by_cases hs : s = d.1
    · simp [hs]
    · have hfilter : s ∈ ((lastOfEach defs).filter (·.1 ≠ d.1)).map Prod.fst ↔ s ∈ (lastOfEach defs).map Prod.fst := by
        simp [hs]
      rw [hfilter, ih]

/-- The list is in the order of the last definitions. -/
theorem pairwise_lastOfEach (defs : List (Word × Word)) :
    (lastOfEach defs).Pairwise fun a b => DefinedBefore defs a.1 b.1 := by
  induction defs using List.reverseRecOn with
  | nil => exact .nil
  | append_singleton defs d ih =>
    obtain ⟨s, v⟩ := d
    rw [lastOfEach_append, List.pairwise_append]
    refine ⟨?_, List.pairwise_singleton _ _, fun a ha b hb => ?_⟩
    · refine (ih.filter _).imp_of_mem fun ha hb hab => ?_
      exact hab.append (by simpa using (List.mem_filter.1 ha).2) (by simpa using (List.mem_filter.1 hb).2) v
    · obtain rfl := List.mem_singleton.1 hb
      obtain ⟨hmem, hne⟩ := List.mem_filter.1 ha
      obtain ⟨i, hi⟩ := exists_isLatest hmem
      exact ⟨i, defs.length, a.2, v, hi.lt, hi.append (by simpa using hne) v, isLatest_append_self defs s v⟩

/-- An order that is strict leaves no room for a symbol twice. -/
theorem DefinedBefore.ne (h : DefinedBefore defs s t) : s ≠ t := by
  rintro rfl
  obtain ⟨i, j, v, w, hij, hi, hj⟩ := h
  exact hi.2 j hij w hj.1

/-- The search from the newest definition on stops at the last one. -/
theorem lookup_reverse_of_isLatest (h : IsLatest defs i s v) : defs.reverse.lookup s = some v := by
  induction defs using List.reverseRecOn with
  | nil => cases h.1
  | append_singleton defs d ih =>
    obtain ⟨t, w⟩ := d
    rw [List.reverse_append, List.reverse_singleton, List.singleton_append, List.lookup_cons]
    by_cases hs : s = t
    · subst hs
      -- no definition is behind the one in front, so that it is the last one
      have hi : ¬ i < defs.length := fun hlt => h.2 _ hlt w List.getElem?_concat_length
      have hlt := h.lt
      rw [List.length_append, List.length_singleton] at hlt
      obtain rfl : i = defs.length := by omega
      have hd := h.1
      rw [List.getElem?_concat_length, Option.some_inj, Prod.mk.injEq] at hd
      simp [hd.2]
    · rw [beq_eq_false_iff_ne.2 hs]
      have hlt : i < defs.length := by
        by_contra hge
        have hd := h.1
        rw [List.getElem?_append_right (Nat.le_of_not_lt hge)] at hd
        exact hs (congrArg Prod.fst (List.mem_singleton.1 (List.mem_of_getElem? hd)))
      refine ih ⟨(List.getElem?_append_left hlt).symm.trans h.1, fun j hj u hu => ?_⟩
      exact h.2 j hj u (by rw [List.getElem?_append_left (List.getElem?_eq_some_iff.1 hu).1, hu])

end Order

/-! ## Building the global frame -/

/-- The global frame of a machine is what these definitions built, the oldest first. Besides them, whatever happens
leaves the cells of the global environment alone. -/
inductive Defined : Machine → List (Word × Word) → Prop where
  | create {config : Config} {terminal : Terminal} {files : Files} {m : Machine} :
    Machine.create config terminal files = .ok m → Defined m []
  | define {m m' : Machine} {defs : List (Word × Word)} {symbol value : Word} : Defined m defs →
    define m.globalEnv symbol value m = .ok () m' → Defined m' (defs ++ [(symbol, value)])
  | defineFailed {m m' : Machine} {defs : List (Word × Word)} {symbol value : Word} {e : Stop} : Defined m defs →
    define m.globalEnv symbol value m = .error e m' → Defined m' defs
  | other {m m' : Machine} {defs : List (Word × Word)} : Defined m defs → m'.globalEnv = m.globalEnv →
    m'.heap.cells.Sound → m.heap.Retained m'.heap (linksOf [m.globalEnv]) → Defined m' defs

/-- The global environment is one, and its frame has these bindings, the newest first. -/
structure GlobalFrame (m : Machine) (bindings : List (Word × Word)) : Prop where
  family : Family m [m.globalEnv]
  frame : m.heap.frameAt m.globalEnv.payload = bindings

section Building

variable {m m' : Machine} {bindings defs : List (Word × Word)} {env symbol value : Word}

theorem globalEnv_onHeap {α : Type} (op : HeapM α) (m : Machine) :
    (after (Eval.onHeap op) m).globalEnv = m.globalEnv := by
  unfold after Eval.onHeap
  cases op m.heap <;> rfl

theorem after_inspect {α : Type} (f : Heap → Except Fault α) (m : Machine) :
    after (Eval.inspect f) m = m := by
  unfold after Eval.inspect
  cases f m.heap <;> rfl

theorem globalEnv_bind {α β : Type} {x : Eval α} {f : α → Eval β} (hx : ∀ m, (after x m).globalEnv = m.globalEnv)
    (hf : ∀ a m, (after (f a) m).globalEnv = m.globalEnv) (m : Machine) :
    (after (x >>= f) m).globalEnv = m.globalEnv := by
  have hxm := hx m
  cases hr : x m with
  | error e m₁ =>
    rw [after_of_error hr] at hxm
    rw [after_of_error (bind_of_error hr), hxm]
  | ok a m₁ =>
    rw [after_of_ok hr] at hxm
    have hsame : after (x >>= f) m = after (f a) m₁ := by
      unfold after
      rw [bind_of_ok hr]
    rw [hsame, hf a m₁, hxm]

theorem globalEnv_define (env symbol value : Word) (m : Machine) :
    (after (define env symbol value) m).globalEnv = m.globalEnv := by
  unfold define
  refine globalEnv_bind (globalEnv_onHeap _) (fun binding m => ?_) m
  refine globalEnv_bind (fun m => congrArg Machine.globalEnv (after_inspect _ m)) (fun frame m => ?_) m
  exact globalEnv_bind (globalEnv_onHeap _) (fun frame m => globalEnv_onHeap _ m) m

/-- Cells that are kept keep the global frame. -/
theorem GlobalFrame.retained (hf : GlobalFrame m bindings) (hglobal : m'.globalEnv = m.globalEnv)
    (hs : m'.heap.cells.Sound) (hr : m.heap.Retained m'.heap (linksOf [m.globalEnv])) : GlobalFrame m' bindings := by
  have hp := hf.family.isPair _ List.mem_cons_self
  have ho : m.heap.Occurs (linksOf [m.globalEnv]) .link m.globalEnv := occurs_linksOf List.mem_cons_self
  refine ⟨⟨?_, ?_⟩, ?_⟩
  · rw [hglobal]
    exact hf.family.hosts.retained hr hs
  · rw [hglobal]
    exact hf.family.isPair
  · rw [hglobal, ← hf.frame, Heap.frameAt, Heap.frameAt, (hr _ _ ho hp).2]
    exact hf.family.hosts.frameBindings_retained hr (.car ho hp rfl)

/-- A definition adds a binding in front, or there is no room for it and the frame is as before. -/
theorem GlobalFrame.define (hf : GlobalFrame m bindings) (symbol value : Word) :
    (∃ m', define m.globalEnv symbol value m = .ok () m' ∧ GlobalFrame m' ((symbol, value) :: bindings)) ∨
      ∃ m', define m.globalEnv symbol value m = .error m.full m' ∧ GlobalFrame m' bindings := by
  have hp := hf.family.isPair _ List.mem_cons_self
  have ho : m.heap.Occurs (linksOf [m.globalEnv]) .link m.globalEnv := occurs_linksOf List.mem_cons_self
  have hglobal := globalEnv_define m.globalEnv symbol value m
  have hfamily := hf.family.define List.mem_cons_self symbol value
  rcases define_cases hf.family.hosts ho hp symbol value with
    ⟨-, m', n, hdef, ha⟩ | ⟨-, m₁, m', frame, hdef, ha, hh₁, hframe, -, hr⟩
  · rw [after_of_error hdef] at hglobal
    exact .inr ⟨m', hdef, hf.retained hglobal ha.sound (hf.family.hosts.retained_of_keptBy ha.kept)⟩
  · rw [after_of_ok hdef] at hglobal hfamily
    refine .inl ⟨m', hdef, hglobal ▸ hfamily, ?_⟩
    have ho₁ := ha.occurs hf.family.hosts ho (.entry, frame)
    rw [hglobal, hh₁.frameAt_reframes ho₁ hp (.part List.mem_cons_self) hr ho₁ hp, if_pos rfl, hframe, hf.frame]

theorem GlobalFrame.create {config : Config} {terminal : Terminal} {files : Files}
    (hm : Machine.create config terminal files = .ok m) : GlobalFrame m [] := by
  obtain ⟨hfamily, hread⟩ := globalEnv_of_create hm
  refine ⟨hfamily, ?_⟩
  rw [Heap.frameAt, hread]
  exact Heap.frameBindings_of_links (.nil (by decide)) (by simp) (by simp)

theorem Defined.globalFrame (hd : Defined m defs) : GlobalFrame m defs.reverse := by
  induction hd with
  | create hm => exact .create hm
  | @define m m' defs symbol value _ hdef ih =>
    rw [List.reverse_append, List.reverse_singleton, List.singleton_append]
    rcases ih.define symbol value with ⟨m₁, hdef₁, hf⟩ | ⟨m₁, hdef₁, -⟩
    · rw [hdef] at hdef₁
      cases hdef₁
      exact hf
    · rw [hdef] at hdef₁
      cases hdef₁
  | @defineFailed m m' defs symbol value e _ hdef ih =>
    rcases ih.define symbol value with ⟨m₁, hdef₁, -⟩ | ⟨m₁, hdef₁, hf⟩
    · rw [hdef] at hdef₁
      cases hdef₁
    · rw [hdef] at hdef₁
      cases hdef₁
      exact hf
  | other _ hglobal hs hr ih => exact ih.retained hglobal hs hr

/-! ## Bindings and values -/

theorem Heap.Links.of_isPair {h : Heap} {w tail : Word} {is : List UInt32} (hl : h.Links w is tail) (hw : w.isPair) :
    ∃ js, is = w.payload :: js := by
  cases hl with
  | nil hnot => exact absurd hw hnot
  | cons _ _ => exact ⟨_, rfl⟩

/-- The value of a symbol that has a binding in the global frame. -/
theorem GlobalFrame.lookup_eq (hf : GlobalFrame m bindings) (hvalue : bindings.lookup symbol = some value) :
    m.heap.lookup m.globalEnv symbol = .ok value := by
  have ho : m.heap.Occurs (linksOf [m.globalEnv]) .link m.globalEnv := occurs_linksOf List.mem_cons_self
  obtain ⟨is, hlinks⟩ := hf.family.hosts.ends ho (by decide)
  obtain ⟨js, rfl⟩ := hlinks.of_isPair (hf.family.isPair _ List.mem_cons_self)
  rw [hf.family.hosts.lookup_eq ho hlinks, List.map_cons, Heap.valueIn, List.findSome?_cons, hf.frame, hvalue]
  rfl

theorem GlobalFrame.globalBindings_eq (hf : GlobalFrame m defs.reverse) :
    m.globalBindings = (lastOfEach defs).map fun d => ⟨m.heap.display d.1, m.heap.write d.2⟩ := by
  have hcar : m.heap.car m.globalEnv = .ok (m.heap.cells.read m.globalEnv.payload).car := by
    rw [Heap.car, Heap.pairCell_of_isPair (hf.family.isPair _ List.mem_cons_self)]
    rfl
  have hframe : frameBindings m.heap (m.heap.cells.read m.globalEnv.payload).car = defs.reverse := hf.frame
  unfold Machine.globalBindings
  rw [hcar]
  dsimp only
  rw [hframe]
  rfl

/-- Whatever is defined in the global environment, and however often: the list of its bindings has one entry for each
symbol that is defined, with the value that the symbol has there, which is the one of its last definition; and the list
is in the order of the last definitions, the oldest first. -/
theorem globalBindings_lookup (hd : Defined m defs) :
    ∃ symbols : List Word, symbols.Nodup ∧ (∀ s, s ∈ symbols ↔ s ∈ defs.map Prod.fst) ∧
      symbols.Pairwise (DefinedBefore defs) ∧
      List.Forall₂ (fun s (b : Binding) => b.name = m.heap.display s ∧ ∃ v,
        m.heap.lookup m.globalEnv s = .ok v ∧ b.value = m.heap.write v ∧ ∃ i, IsLatest defs i s v)
        symbols m.globalBindings := by
  have hf := hd.globalFrame
  have hordered : ((lastOfEach defs).map Prod.fst).Pairwise (DefinedBefore defs) :=
    List.pairwise_map.2 (pairwise_lastOfEach defs)
  refine ⟨(lastOfEach defs).map Prod.fst, hordered.imp DefinedBefore.ne, fun s => mem_keys_lastOfEach, hordered, ?_⟩
  rw [hf.globalBindings_eq, List.forall₂_map_left_iff, List.forall₂_map_right_iff, List.forall₂_same]
  rintro ⟨s, v⟩ hmem
  obtain ⟨i, hi⟩ := exists_isLatest hmem
  exact ⟨rfl, v, hf.lookup_eq (lookup_reverse_of_isLatest hi), rfl, i, hi⟩

def defineAll : List (Word × Word) → Eval Unit
  | [] => pure ()
  | (symbol, value) :: defs => do
    define (← get).globalEnv symbol value
    defineAll defs

theorem Defined.defineAll (hd : Defined m defs) {more : List (Word × Word)}
    (hok : BoxedScheme.defineAll more m = .ok () m') : Defined m' (defs ++ more) := by
  induction more generalizing m defs with
  | nil =>
    cases hok
    rwa [List.append_nil]
  | cons d more ih =>
    obtain ⟨symbol, value⟩ := d
    change (BoxedScheme.define m.globalEnv symbol value >>= fun _ => BoxedScheme.defineAll more) m = _ at hok
    cases hdef : BoxedScheme.define m.globalEnv symbol value m with
    | error e m₁ =>
      rw [bind_of_error hdef] at hok
      cases hok
    | ok _ m₁ =>
      rw [bind_of_ok hdef] at hok
      have hmore := ih (hd.define hdef) hok
      rwa [List.append_assoc] at hmore

/-- The procedures `car` and `cdr`, and `car` again. -/
def redefinitions : List (Word × Word) := [(.symbol 9, .ofNat 1), (.symbol 10, .ofNat 2), (.symbol 9, .ofNat 3)]

def bindingsAfter (defs : List (Word × Word)) : Option (List Binding) :=
  match Machine.create { cells := 16, strings := 64, roots := 1 } .capturing {} with
  | .error _ => none
  | .ok m =>
    match defineAll defs m with
    | .ok _ m => some m.globalBindings
    | .error _ _ => none

/-- The older definition is not shown, and the newer one is at the end. -/
theorem globalBindings_lookup_redefined :
    ∃ m s t, Defined m redefinitions ∧ m.globalBindings = [⟨"cdr", "2"⟩, ⟨"car", "3"⟩] ∧
      DefinedBefore redefinitions s t ∧ m.heap.display s = "cdr" ∧ m.heap.display t = "car" ∧
      ∃ v, m.heap.lookup m.globalEnv t = .ok v ∧ m.heap.write v = "3" := by
  have hafter : bindingsAfter redefinitions = some [⟨"cdr", "2"⟩, ⟨"car", "3"⟩] := by decide +kernel
  unfold bindingsAfter at hafter
  cases hm : Machine.create { cells := 16, strings := 64, roots := 1 } .capturing {} with
  | error e =>
    rw [hm] at hafter
    cases hafter
  | ok m₀ =>
    rw [hm] at hafter
    dsimp only at hafter
    cases hdefs : defineAll redefinitions m₀ with
    | error e m =>
      rw [hdefs] at hafter
      cases hafter
    | ok _ m =>
      rw [hdefs] at hafter
      have hbindings : m.globalBindings = [⟨"cdr", "2"⟩, ⟨"car", "3"⟩] := Option.some_inj.1 hafter
      have hd : Defined m redefinitions := (Defined.create hm).defineAll hdefs
      obtain ⟨symbols, -, -, hordered, hentries⟩ := globalBindings_lookup hd
      rw [hbindings] at hentries
      obtain ⟨s, rest, hs, hrest, rfl⟩ := List.forall₂_cons_right_iff.1 hentries
      obtain ⟨t, rest, ht, hrest, rfl⟩ := List.forall₂_cons_right_iff.1 hrest
      obtain ⟨v, hv, hwrite, -⟩ := ht.2
      refine ⟨m, s, t, hd, hbindings, ?_, hs.1.symm, ht.1.symm, v, hv, hwrite.symm⟩
      exact List.rel_of_pairwise_cons hordered List.mem_cons_self

end Building

end BoxedScheme
