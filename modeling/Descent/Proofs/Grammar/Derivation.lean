import Descent.Grammar.Derivation

/-!
# Deriving in a context, and the words of a form

Steps do not see what stands around them: a derivation can be carried out
inside a longer form, and derivations of two neighbouring forms can be put
next to each other.

Words are easier to take apart than derivations. `Yields` reads a form from
left to right and gives every nonterminal its own piece of the word, which is
a derivation tree without its inner nodes. A form yields exactly the words that
it derives (`yields_iff_derives`), so an induction over a derivation of a word
may follow the form instead of the order of the steps.
-/

namespace Descent

namespace Grammar

variable {g : Grammar}

/-! ## Steps in a context -/

theorem Expands.context {form next : List Token} (h : g.Expands form next)
    (before after : List Token) :
    g.Expands (before ++ form ++ after) (before ++ next ++ after) := by
  cases h with
  | replace front back mem =>
      have hstep := Expands.replace (before ++ front) (back ++ after) mem
      simpa only [List.append_assoc, List.cons_append] using hstep

theorem Derives.trans {form next last : List Token} (h : g.Derives form next)
    (h' : g.Derives next last) : g.Derives form last := by
  induction h with
  | refl _ => exact h'
  | step first _ ih => exact .step first (ih h')

theorem Derives.context {form last : List Token} (h : g.Derives form last)
    (before after : List Token) :
    g.Derives (before ++ form ++ after) (before ++ last ++ after) := by
  induction h with
  | refl _ => exact .refl _
  | step first _ ih => exact .step (first.context before after) ih

theorem Derives.append {form last form' last' : List Token}
    (h : g.Derives form last) (h' : g.Derives form' last') :
    g.Derives (form ++ form') (last ++ last') := by
  have hleft := h.context [] form'
  have hright := h'.context last []
  simp only [List.nil_append, List.append_nil] at hleft hright
  exact hleft.trans hright

theorem Expands.of_mem {n : Nat} {right : List Token}
    (mem : right ∈ g.rightSides n) : g.Expands [.nonterminal n] right := by
  have hstep := Expands.replace [] [] mem
  simpa only [List.nil_append, List.append_nil] using hstep

theorem Derives.of_mem {n : Nat} {right : List Token}
    (mem : right ∈ g.rightSides n) : g.Derives [.nonterminal n] right :=
  .step (.of_mem mem) (.refl _)

theorem DerivesProperly.derives {form last : List Token}
    (h : g.DerivesProperly form last) : g.Derives form last := by
  obtain ⟨next, hfirst, hothers⟩ := h
  exact .step hfirst hothers

/-! ## Words -/

/-- A form yields a word: its terminals stand in the word, and in between every
nonterminal yields what one of its right sides does. -/
inductive Yields (g : Grammar) : List Token → List Nat → Prop
  | nil : Yields g [] []
  | terminal {id : Nat} {rest : List Token} {word : List Nat}
      (tail : Yields g rest word) :
      Yields g (.terminal id :: rest) (id :: word)
  | nonterminal {n : Nat} {right rest : List Token} {piece word : List Nat}
      (mem : right ∈ g.rightSides n) (head : Yields g right piece)
      (tail : Yields g rest word) :
      Yields g (.nonterminal n :: rest) (piece ++ word)

theorem yields_terminals (word : List Nat) :
    g.Yields (word.map .terminal) word := by
  induction word with
  | nil => exact .nil
  | cons id word ih => exact .terminal ih

theorem Yields.append {form form' : List Token} {word word' : List Nat}
    (h : g.Yields form word) (h' : g.Yields form' word') :
    g.Yields (form ++ form') (word ++ word') := by
  induction h with
  | nil => exact h'
  | terminal _ ih => exact .terminal ih
  | nonterminal mem head _ _ ih =>
      rw [List.append_assoc]
      exact .nonterminal mem head ih

theorem Yields.split {form form' : List Token} {word : List Nat}
    (h : g.Yields (form ++ form') word) :
    ∃ front back, word = front ++ back ∧ g.Yields form front ∧
      g.Yields form' back := by
  induction form generalizing word with
  | nil => exact ⟨[], word, rfl, .nil, h⟩
  | cons token form ih =>
      cases h with
      | terminal tail =>
          obtain ⟨front, back, rfl, hfront, hback⟩ := ih tail
          exact ⟨_ :: front, back, rfl, .terminal hfront, hback⟩
      | @nonterminal _ _ _ piece _ mem head tail =>
          obtain ⟨front, back, rfl, hfront, hback⟩ := ih tail
          exact ⟨piece ++ front, back, (List.append_assoc ..).symm,
            .nonterminal mem head hfront, hback⟩

/-- A word is kept when a step is taken back. -/
theorem Yields.of_expands {form next : List Token} {word : List Nat}
    (hstep : g.Expands form next) (h : g.Yields next word) :
    g.Yields form word := by
  cases hstep with
  | replace before after mem =>
      obtain ⟨front, back, rfl, hfront, hback⟩ := h.split
      obtain ⟨outer, piece, rfl, houter, hpiece⟩ := hfront.split
      rw [List.append_assoc]
      exact houter.append (.nonterminal mem hpiece hback)

theorem Derives.yields {form : List Token} {word : List Nat}
    (h : g.Derives form (word.map .terminal)) : g.Yields form word := by
  generalize hlast : word.map Token.terminal = last at h
  induction h with
  | refl _ =>
      subst hlast
      exact yields_terminals word
  | step first _ ih => exact (ih hlast).of_expands first

theorem Yields.derives {form : List Token} {word : List Nat}
    (h : g.Yields form word) : g.Derives form (word.map .terminal) := by
  induction h with
  | nil => exact .refl _
  | terminal _ ih => exact (Derives.refl [_]).append ih
  | nonterminal mem _ _ ihhead ihtail =>
      rw [List.map_append]
      exact ((Derives.of_mem mem).trans ihhead).append ihtail

/-- A form yields the words that it derives. -/
theorem yields_iff_derives {form : List Token} {word : List Nat} :
    g.Yields form word ↔ g.Derives form (word.map .terminal) :=
  ⟨Yields.derives, Derives.yields⟩

end Grammar

/-! ## Words of values -/

namespace Header

variable {h : Header} {word word' : List Nat} {values values' : List String}

theorem emits_nil : h.Emits [] [] := rfl

theorem Emits.cons {t : Nat} {value : String} (hvalue : h.value? t = some value)
    (hrest : h.Emits word values) : h.Emits (t :: word) (value :: values) := by
  rw [Emits, List.map_cons, List.map_cons, hvalue, hrest]

theorem Emits.append (hfront : h.Emits word values)
    (hback : h.Emits word' values') :
    h.Emits (word ++ word') (values ++ values') := by
  rw [Emits, List.map_append, List.map_append, hfront, hback]

theorem Emits.uncons {t : Nat} (hemits : h.Emits (t :: word) values) :
    ∃ value rest, values = value :: rest ∧ h.value? t = some value ∧
      h.Emits word rest := by
  obtain ⟨value, rest, rfl, hvalue, hrest⟩ := List.map_eq_cons_iff.mp hemits.symm
  exact ⟨value, rest, rfl, hvalue.symm, hrest.symm⟩

theorem Emits.split (hemits : h.Emits (word ++ word') values) :
    ∃ front back, values = front ++ back ∧ h.Emits word front ∧
      h.Emits word' back := by
  rw [Emits, List.map_append] at hemits
  obtain ⟨front, back, rfl, hfront, hback⟩ :=
    List.map_eq_append_iff.mp hemits.symm
  exact ⟨front, back, rfl, hfront.symm, hback.symm⟩

theorem Emits.eq_nil (hemits : h.Emits [] values) :
    values = [] :=
  List.map_eq_nil_iff.mp hemits.symm

/-- A word of declared terminals has values. -/
theorem exists_emits (hword : ∀ t ∈ word, t < h.terminals.size) :
    ∃ values, h.Emits word values := by
  induction word with
  | nil => exact ⟨[], emits_nil⟩
  | cons t word ih =>
      obtain ⟨values, hvalues⟩ :=
        ih fun u hu => hword u (List.mem_cons_of_mem _ hu)
      have ht := hword t List.mem_cons_self
      refine ⟨h.terminals.entries[t].2 :: values, Emits.cons ?_ hvalues⟩
      rw [value?, terminal?, Table.at?, List.getElem?_eq_getElem ht]
      rfl

end Header

end Descent
