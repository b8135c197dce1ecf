import Treewalk.Proofs.Lexical.Relation

/-! # Agreement of states

    When a state of the machine, with the log of the run so far, and a state of
    lexical evaluation agree in a world; and that every elementary change of the
    one, made together with the corresponding change of the other, keeps them in
    agreement. -/

namespace Treewalk

open Lexical

/-! ### Bindings and cells -/

section Bindings

variable {W W' : World} {store store' : Store Value} {h : History}
  {cells cells' : Array (Option LValue)} {s : ScopeId} {x : String} {c : Cell}
  {v : Value} {v' : LValue}

/-- A binding agrees with its cell.  It is missing only if its `var` statement
    has begun; `this` and `super` are never missing. -/
structure EntryAgrees (W : World) (store : Store Value) (h : History)
    (cells : Array (Option LValue)) (s : ScopeId) (x : String) (c : Cell) : Prop where
  notGlobal : s ≠ globalScope
  scope_lt : s < W.scopes
  cell_lt : c < cells.size
  content : Option.Rel (ValueRel W) ((store.bindings s).find? x) cells[c]?.join
  receiver : x = Keyword.thisWord.text → ∃ v, (store.bindings s).find? x = some v
  superclass : x = Keyword.superWord.text →
    ∃ id definition, (store.bindings s).find? x = some (.cls id definition)
  begun : (store.bindings s).find? x = none → Begun h s x

theorem EntryAgrees.congr (hentry : EntryAgrees W store h cells s x c) (hW : W.Below W')
    (hfind : (store'.bindings s).find? x = (store.bindings s).find? x)
    (hcell : cells'[c]? = cells[c]?) (hsize : cells.size ≤ cells'.size) :
    EntryAgrees W' store' h cells' s x c := by
  obtain ⟨hglobal, hscope, hlt, hcontent, hreceiver, hsuper, hbegun⟩ := hentry
  rw [← hfind] at hcontent hreceiver hsuper hbegun
  rw [← hcell] at hcontent
  exact ⟨hglobal, Nat.lt_of_lt_of_le hscope hW.scopes_le, Nat.lt_of_lt_of_le hlt hsize,
    rel_mono hcontent fun hv => hv.mono hW, hreceiver, hsuper, hbegun⟩

/-- The local bindings agree with the cells. -/
structure BindingsAgree (W : World) (store : Store Value) (h : History)
    (cells : Array (Option LValue)) : Prop where
  scopes : store.scopes.size = W.scopes
  pos : 0 < W.scopes
  entry : ∀ {s x c}, W.cell s x = some c → EntryAgrees W store h cells s x c
  distinct : ∀ {s x s' x' c}, W.cell s x = some c → W.cell s' x' = some c → s = s' ∧ x = x'
  unknown : ∀ {s x}, s ≠ globalScope → W.cell s x = none → (store.bindings s).find? x = none
  declared : ∀ {s x}, s ≠ globalScope → Declared h s x → ((store.bindings s).find? x).isSome

/-- A cell that stands for no binding. -/
def Unused (W : World) (c : Cell) : Prop := ∀ s x, W.cell s x ≠ some c

namespace BindingsAgree

/-- Only the scopes of a store count. -/
theorem congr (hagree : BindingsAgree W store h cells) (hscopes : store'.scopes = store.scopes) :
    BindingsAgree W store' h cells := by
  have hbindings (s : ScopeId) : store'.bindings s = store.bindings s := by
    unfold Store.bindings
    rw [hscopes]
  exact
    { scopes := by rw [hscopes, hagree.scopes]
      pos := hagree.pos
      entry := fun hc => (hagree.entry hc).congr (.refl W) (by rw [hbindings]) rfl (Nat.le_refl _)
      distinct := hagree.distinct
      unknown := fun hs hc => by rw [hbindings]; exact hagree.unknown hs hc
      declared := fun hs hd => by rw [hbindings]; exact hagree.declared hs hd }

theorem addScope (hagree : BindingsAgree W store h cells) (env : Env) :
    BindingsAgree W.addScope (store.extend env).2 h cells where
  scopes := by simp [hagree.scopes, World.addScope]
  pos := Nat.succ_pos _
  entry hc := (hagree.entry hc).congr W.below_addScope (by rw [Store.bindings_extend]) rfl
    (Nat.le_refl _)
  distinct := hagree.distinct
  unknown hs hc := by
    rw [Store.bindings_extend]
    exact hagree.unknown hs hc
  declared hs hd := by
    rw [Store.bindings_extend]
    exact hagree.declared hs hd

/-- A new cell stands for no binding yet. -/
theorem pushCell (hagree : BindingsAgree W store h cells) (content : Option LValue) :
    BindingsAgree W store h (cells.push content) := by
  refine { hagree with entry := fun {s x c} hc => ?_ }
  have hlt := (hagree.entry hc).cell_lt
  refine (hagree.entry hc).congr (.refl W) rfl ?_ (by simp)
  rw [Array.getElem?_push, if_neg (Nat.ne_of_lt hlt)]

/-- A scope that does not exist yet has no names. -/
theorem cell_scopes (hagree : BindingsAgree W store h cells) (x : String) :
    W.cell W.scopes x = none := by
  cases hc : W.cell W.scopes x with
  | none => rfl
  | some c => exact absurd (hagree.entry hc).scope_lt (Nat.lt_irrefl _)

theorem unused_size (hagree : BindingsAgree W store h cells) : Unused W cells.size :=
  fun _ _ hc => Nat.lt_irrefl _ (hagree.entry hc).cell_lt

/-- A change of a binding and its cell. -/
theorem fill (hagree : BindingsAgree W store h cells) (hc : W.cell s x = some c)
    (hx : Unreserved x) (hv : ValueRel W v v') :
    BindingsAgree W (store.bind s x v) h (cells.modify c fun _ => some v') := by
  have hentry := hagree.entry hc
  have hlt : s < store.scopes.size := hagree.scopes ▸ hentry.scope_lt
  refine
    { scopes := by rw [Store.size_bind, hagree.scopes]
      pos := hagree.pos
      entry := fun {s₁ x₁ c₁} hc₁ => ?_
      distinct := hagree.distinct
      unknown := fun {s₁ x₁} hs₁ hc₁ => ?_
      declared := fun {s₁ x₁} hs₁ hd => ?_ }
  · -- the binding that changes, or another one, whose cell is another cell
    by_cases heq : s₁ = s ∧ x₁ = x
    · obtain ⟨rfl, rfl⟩ := heq
      rw [hc] at hc₁
      cases hc₁
      have hfind : ((store.bind s₁ x₁ v).bindings s₁).find? x₁ = some v := by
        rw [Store.find?_bind store hlt, if_pos ⟨rfl, rfl⟩]
      refine ⟨hentry.notGlobal, hentry.scope_lt, by simpa using hentry.cell_lt, ?_, ?_, ?_, ?_⟩
      · rw [hfind, Array.getElem?_modify, if_pos rfl, Array.getElem?_eq_getElem hentry.cell_lt]
        exact .some hv
      · exact fun hthis => absurd hthis (hx.ne_keyword .thisWord)
      · exact fun hsuper => absurd hsuper (hx.ne_keyword .superWord)
      · intro hnone
        rw [hfind] at hnone
        cases hnone
    · have hne : c ≠ c₁ := by
        rintro rfl
        exact heq (hagree.distinct hc₁ hc)
      refine (hagree.entry hc₁).congr (.refl W) ?_ ?_ (by simp)
      · rw [Store.find?_bind store hlt, if_neg heq]
      · rw [Array.getElem?_modify, if_neg hne]
  · rw [Store.find?_bind store hlt, if_neg]
    · exact hagree.unknown hs₁ hc₁
    · rintro ⟨rfl, rfl⟩
      rw [hc] at hc₁
      cases hc₁
  · rw [Store.find?_bind store hlt]
    split
    · rfl
    · exact hagree.declared hs₁ hd

/-- A new name in a scope, whose cell is not in use yet. -/
theorem addCell (hagree : BindingsAgree W store h cells) (hc : Unused W c)
    (hnone : W.cell s x = none) (hsame : ∀ s₁ x₁, ¬ (s₁ = s ∧ x₁ = x) →
      (store'.bindings s₁).find? x₁ = (store.bindings s₁).find? x₁)
    (hscopes : store'.scopes.size = store.scopes.size)
    (hdeclared : Declared h s x → ((store'.bindings s).find? x).isSome)
    (hentry : EntryAgrees (W.addCell s x c) store' h cells s x c) :
    BindingsAgree (W.addCell s x c) store' h cells := by
  have hW := World.below_addCell c hnone
  refine
    { scopes := by rw [hscopes, hagree.scopes]; rfl
      pos := hagree.pos
      entry := fun {s₁ x₁ c₁} hc₁ => ?_
      distinct := fun {s₁ x₁ s₂ x₂ c₁} hc₁ hc₂ => ?_
      unknown := fun {s₁ x₁} hs₁ hc₁ => ?_
      declared := fun {s₁ x₁} hs₁ hd => ?_ }
  · -- the new name, or one from before, which is a different one
    rcases World.cell_addCell hc₁ with ⟨rfl, rfl, rfl⟩ | hold
    · exact hentry
    · refine (hagree.entry hold).congr hW (hsame s₁ x₁ ?_) rfl (Nat.le_refl _)
      rintro ⟨rfl, rfl⟩
      rw [hnone] at hold
      cases hold
  · -- the cell of the new name was not in use
    rcases World.cell_addCell hc₁ with ⟨rfl, rfl, rfl⟩ | hold₁
    · rcases World.cell_addCell hc₂ with ⟨rfl, rfl, -⟩ | hold₂
      · exact ⟨rfl, rfl⟩
      · exact absurd hold₂ (hc s₂ x₂)
    · rcases World.cell_addCell hc₂ with ⟨rfl, rfl, rfl⟩ | hold₂
      · exact absurd hold₁ (hc s₁ x₁)
      · exact hagree.distinct hold₁ hold₂
  · have hother : ¬ (s₁ = s ∧ x₁ = x) := by
      rintro ⟨rfl, rfl⟩
      rw [World.cell_addCell_self] at hc₁
      cases hc₁
    rw [hsame s₁ x₁ hother]
    refine hagree.unknown hs₁ ?_
    cases hold : W.cell s₁ x₁ with
    | none => rfl
    | some c₁ =>
      rw [hW.cell_of hold] at hc₁
      cases hc₁
  · by_cases heq : s₁ = s ∧ x₁ = x
    · obtain ⟨rfl, rfl⟩ := heq
      exact hdeclared hd
    · rw [hsame s₁ x₁ heq]
      exact hagree.declared hs₁ hd

/-- A variable whose declaration begins: its cell is empty. -/
theorem begin (hagree : BindingsAgree W store h cells) (hnone : W.cell s x = none)
    (hglobal : s ≠ globalScope) (hlt : s < W.scopes) (hx : Unreserved x) (hbegun : Begun h s x) :
    BindingsAgree (W.addCell s x cells.size) store h (cells.push none) := by
  -- neither the scope nor the cell holds a value yet
  have hfind := hagree.unknown hglobal hnone
  refine (hagree.pushCell none).addCell hagree.unused_size hnone (fun _ _ _ => rfl) rfl
    (hagree.declared hglobal) ⟨hglobal, hlt, by simp, ?_, ?_, ?_, fun _ => hbegun⟩
  · rw [hfind, Array.getElem?_push, if_pos rfl]
    exact .none
  · exact fun hthis => absurd hthis (hx.ne_keyword .thisWord)
  · exact fun hsuper => absurd hsuper (hx.ne_keyword .superWord)

/-- A name that is bound at once, in a cell that holds its value. -/
theorem adopt (hagree : BindingsAgree W store h cells) (hc : Unused W c)
    (hnone : W.cell s x = none) (hglobal : s ≠ globalScope) (hlt : s < W.scopes)
    (hcell : cells[c]? = some (some v')) (hv : ValueRel (W.addCell s x c) v v')
    (hsuper : x = Keyword.superWord.text → ∃ id definition, v = .cls id definition) :
    BindingsAgree (W.addCell s x c) (store.bind s x v) h cells := by
  -- the name is bound at once, so nothing has to be known of a declaration
  have hscope : s < store.scopes.size := hagree.scopes ▸ hlt
  have hfind : ((store.bind s x v).bindings s).find? x = some v := by
    rw [Store.find?_bind store hscope, if_pos ⟨rfl, rfl⟩]
  refine hagree.addCell hc hnone (fun s₁ x₁ hother => ?_) (Store.size_bind _ _ _ _) (fun _ => ?_)
    ⟨hglobal, hlt, ?_, ?_, ?_, ?_, ?_⟩
  · rw [Store.find?_bind store hscope, if_neg hother]
  · rw [hfind]
    rfl
  · exact (Array.getElem?_eq_some_iff.mp hcell).1
  · rw [hfind, hcell]
    exact .some hv
  · exact fun _ => ⟨v, hfind⟩
  · intro hname
    obtain ⟨id, definition, rfl⟩ := hsuper hname
    exact ⟨id, definition, hfind⟩
  · intro hnone
    rw [hfind] at hnone
    cases hnone

end BindingsAgree

end Bindings

/-! ### States -/

/-- The states agree: each binding with its cell, the globals and the objects.
    The log so far is safe. -/
structure Agrees (W : World) (m : Machine) (h : History) (r : State) : Prop where
  bindings : BindingsAgree W m.store h r.cells
  globals : TableRel (ValueRel W) (m.store.bindings globalScope) r.globals
  objectCount : m.store.objects.size = r.objects.size
  objects : ∀ i, TableRel (ValueRel W) (m.store.fields i) (r.objects[i]?.getD Table.empty)
  fresh : m.store.fresh = r.fresh
  printed : m.printed = r.printed
  clock : m.clock = r.clock
  readings : m.readings = r.readings
  safe : ∀ event ∈ h, event.Safe

namespace Agrees

variable {W W' : World} {m : Machine} {h : History} {r : State} {v : Value} {v' : LValue}

/-- A change of bindings and cells alone, in a world that may have grown. -/
theorem grow {store : Store Value} {cells : Array (Option LValue)} (hagrees : Agrees W m h r)
    (hW : W.Below W') (hbindings : BindingsAgree W' store h cells)
    (hglobals : store.bindings globalScope = m.store.bindings globalScope)
    (hobjects : store.objects = m.store.objects) (hfresh : store.fresh = m.store.fresh) :
    Agrees W' { m with store } h { r with cells } where
  bindings := hbindings
  globals := by
    show TableRel _ (store.bindings globalScope) _
    rw [hglobals]
    exact hagrees.globals.mono fun hv => hv.mono hW
  objectCount := by
    show store.objects.size = _
    rw [hobjects]
    exact hagrees.objectCount
  objects i := by
    have hfields : store.fields i = m.store.fields i := by
      unfold Store.fields
      rw [hobjects]
    show TableRel _ (store.fields i) _
    rw [hfields]
    exact (hagrees.objects i).mono fun hv => hv.mono hW
  fresh := hfresh.trans hagrees.fresh
  printed := hagrees.printed
  clock := hagrees.clock
  readings := hagrees.readings
  safe := hagrees.safe

/-! ### The log -/

theorem begun_cons {event : Event} {s : ScopeId} {x : String} (hbegun : Begun h s x) :
    Begun (event :: h) s x := by
  obtain ⟨ctx, name, initial, store, hmem, hrest⟩ := hbegun
  exact ⟨ctx, name, initial, store, List.mem_cons_of_mem event hmem, hrest⟩

/-- An event; the end of a declaration only when the name is bound. -/
theorem note {event : Event} (hagrees : Agrees W m h r) (hsafe : event.Safe)
    (hbound : ∀ ctx name s, event = .declares ctx name → s ≠ globalScope →
      ctx.env.head? = some s → ((m.store.bindings s).find? name.text).isSome) :
    Agrees W m (event :: h) r :=
  { hagrees with
    bindings :=
      { hagrees.bindings with
        entry := fun hc =>
          { hagrees.bindings.entry hc with
            begun := fun hnone => begun_cons ((hagrees.bindings.entry hc).begun hnone) }
        declared := by
          rintro s _ hs ⟨ctx, name, hmem, hhead, rfl⟩
          -- the declaration that just ended, or one that ended before
          rcases List.mem_cons.mp hmem with heq | hmem
          · exact hbound ctx name s heq.symm hs hhead
          · exact hagrees.bindings.declared hs ⟨ctx, name, hmem, hhead, rfl⟩ }
    safe := by
      intro event' hmem
      rcases List.mem_cons.mp hmem with rfl | hmem
      · exact hsafe
      · exact hagrees.safe event' hmem }

/-! ### Output, clock and identities -/

theorem print (hagrees : Agrees W m h r) (line : String) :
    Agrees W { m with printed := m.printed.push line } h { r with printed := r.printed.push line } :=
  { hagrees with printed := by rw [hagrees.printed] }

theorem readClock (hagrees : Agrees W m h r) :
    Agrees W { m with readings := m.readings + 1 } h { r with readings := r.readings + 1 } :=
  { hagrees with readings := by rw [hagrees.readings] }

theorem setFresh (hagrees : Agrees W m h r) (n : Nat) :
    Agrees W { m with store := { m.store with fresh := n } } h { r with fresh := n } :=
  { hagrees with
    bindings := hagrees.bindings.congr rfl
    fresh := rfl }

theorem identity (hagrees : Agrees W m h r) :
    Agrees W { m with store := m.store.identity.2 } h { r with fresh := r.fresh + 1 } := by
  have hnext : m.store.identity.2 = { m.store with fresh := r.fresh + 1 } := by
    rw [← hagrees.fresh]
    rfl
  rw [hnext]
  exact hagrees.setFresh (r.fresh + 1)

/-! ### Objects -/

theorem newObject (hagrees : Agrees W m h r) :
    Agrees W { m with store := m.store.newObject.2 } h
      { r with objects := r.objects.push Table.empty } :=
  { hagrees with
    bindings := hagrees.bindings.congr rfl
    objectCount := by simp [Store.newObject, hagrees.objectCount]
    objects := by
      intro i
      show TableRel _ (m.store.newObject.2.fields i) _
      rw [Store.fields_newObject, Array.getElem?_push]
      -- the new object has no fields, as an object that is not there
      by_cases hi : i = r.objects.size
      · rw [if_pos hi]
        have hnone : r.objects[i]? = none := Array.getElem?_eq_none (Nat.le_of_eq hi.symm)
        have hrel := hagrees.objects i
        rw [hnone] at hrel
        exact hrel
      · rw [if_neg hi]
        exact hagrees.objects i }

theorem setField (hagrees : Agrees W m h r) (object : Nat) (name : String)
    (hv : ValueRel W v v') :
    Agrees W { m with store := m.store.setField object name v } h
      { r with objects := r.objects.modify object (·.insert name v') } :=
  { hagrees with
    bindings := hagrees.bindings.congr rfl
    objectCount := by simp [Store.setField, hagrees.objectCount]
    objects := by
      intro i
      show TableRel _ ((m.store.setField object name v).fields i) _
      have hrel := hagrees.objects i
      rw [Store.fields_setField, Array.getElem?_modify]
      by_cases hi : object = i
      · subst hi
        -- writing to an object that is not there changes nothing on either side
        by_cases hlt : object < m.store.objects.size
        · have hlt' : object < r.objects.size := hagrees.objectCount ▸ hlt
          rw [if_pos ⟨rfl, hlt⟩, if_pos rfl]
          rw [Array.getElem?_eq_getElem hlt'] at hrel ⊢
          exact hrel.insert name hv
        · have hge : r.objects.size ≤ object := hagrees.objectCount ▸ Nat.not_lt.mp hlt
          rw [if_neg fun hand => hlt hand.2, if_pos rfl]
          rw [Array.getElem?_eq_none hge] at hrel ⊢
          exact hrel
      · rw [if_neg fun hand => hi hand.1.symm, if_neg hi]
        exact hrel }

/-! ### Scopes, cells and globals -/

theorem addScope (hagrees : Agrees W m h r) (env : Env) :
    Agrees W.addScope { m with store := (m.store.extend env).2 } h r :=
  hagrees.grow W.below_addScope (hagrees.bindings.addScope env) (Store.bindings_extend _ _ _) rfl rfl

/-- A write to a local name leaves the globals alone. -/
theorem bindings_global {s : ScopeId} (hagrees : Agrees W m h r) (hs : s ≠ globalScope)
    (hlt : s < W.scopes) (x : String) (v : Value) :
    (m.store.bind s x v).bindings globalScope = m.store.bindings globalScope := by
  have hscope : s < m.store.scopes.size := hagrees.bindings.scopes ▸ hlt
  rw [Store.bindings_bind _ hscope, if_neg (Ne.symm hs)]

theorem fill {s : ScopeId} {x : String} {c : Cell} (hagrees : Agrees W m h r)
    (hc : W.cell s x = some c) (hx : Unreserved x) (hv : ValueRel W v v') :
    Agrees W { m with store := m.store.bind s x v } h
      { r with cells := r.cells.modify c fun _ => some v' } := by
  have hentry := hagrees.bindings.entry hc
  exact hagrees.grow (.refl W) (hagrees.bindings.fill hc hx hv)
    (hagrees.bindings_global hentry.notGlobal hentry.scope_lt x v) rfl rfl

theorem begin {s : ScopeId} {x : String} (hagrees : Agrees W m h r) (hnone : W.cell s x = none)
    (hs : s ≠ globalScope) (hlt : s < W.scopes) (hx : Unreserved x) (hbegun : Begun h s x) :
    Agrees (W.addCell s x r.cells.size) m h { r with cells := r.cells.push none } :=
  hagrees.grow (World.below_addCell _ hnone) (hagrees.bindings.begin hnone hs hlt hx hbegun)
    rfl rfl rfl

/-- A name bound at once, in a new cell. -/
theorem adopt {s : ScopeId} {x : String} (hagrees : Agrees W m h r) (hnone : W.cell s x = none)
    (hs : s ≠ globalScope) (hlt : s < W.scopes)
    (hv : ValueRel (W.addCell s x r.cells.size) v v')
    (hsuper : x = Keyword.superWord.text → ∃ id definition, v = .cls id definition) :
    Agrees (W.addCell s x r.cells.size) { m with store := m.store.bind s x v } h
      { r with cells := r.cells.push (some v') } := by
  have hpushed := hagrees.bindings.pushCell (some v')
  refine hagrees.grow (World.below_addCell _ hnone) ?_ (hagrees.bindings_global hs hlt x v) rfl rfl
  exact hpushed.adopt hagrees.bindings.unused_size hnone hs hlt (by simp) hv hsuper

/-- A new scope with one name, in a new cell. -/
theorem enclose {x : String} (hagrees : Agrees W m h r) (env : Env) (hv : ValueRel W v v')
    (hsuper : x = Keyword.superWord.text → ∃ id definition, v = .cls id definition) :
    Agrees (W.enclosing x r.cells.size)
      { m with store := (m.store.extend env).2.bind W.scopes x v } h
      { r with cells := r.cells.push (some v') } := by
  -- the scope is new, so it does not have the name
  have hnone : W.addScope.cell W.scopes x = none := hagrees.bindings.cell_scopes x
  have hW : W.Below (W.enclosing x r.cells.size) :=
    W.below_addScope.trans (World.below_addCell _ hnone)
  exact (hagrees.addScope env).adopt hnone (Nat.ne_of_gt hagrees.bindings.pos)
    (Nat.lt_succ_self _) (hv.mono hW) hsuper

theorem writeGlobal (hagrees : Agrees W m h r) (x : String) (hv : ValueRel W v v') :
    Agrees W { m with store := m.store.bind globalScope x v } h
      { r with globals := r.globals.insert x v' } := by
  have hlt : globalScope < m.store.scopes.size := by
    rw [hagrees.bindings.scopes]
    exact hagrees.bindings.pos
  -- no cell stands for a global, so the local bindings stay as they are
  have hlocal {s : ScopeId} {y : String} (hs : s ≠ globalScope) :
      ((m.store.bind globalScope x v).bindings s).find? y = (m.store.bindings s).find? y := by
    rw [Store.find?_bind _ hlt, if_neg fun heq => hs heq.1]
  exact
    { hagrees with
      bindings :=
        { scopes := by rw [Store.size_bind, hagrees.bindings.scopes]
          pos := hagrees.bindings.pos
          entry := fun hc =>
            have hentry := hagrees.bindings.entry hc
            hentry.congr (.refl W) (hlocal hentry.notGlobal) rfl (Nat.le_refl _)
          distinct := hagrees.bindings.distinct
          unknown := fun hs hc => (hlocal hs).trans (hagrees.bindings.unknown hs hc)
          declared := fun hs hd => by rw [hlocal hs]; exact hagrees.bindings.declared hs hd }
      globals := by
        show TableRel _ ((m.store.bind globalScope x v).bindings globalScope) _
        rw [Store.bindings_bind _ hlt, if_pos rfl]
        exact hagrees.globals.insert x hv }

end Agrees

end Treewalk
