/-
What a source can write.

A function made by hand may hold blocks inside blocks, operators without an
instruction, any text for a name and any bit pattern for a number, and its statements
may go on after a return.  None of that can be read from a source: a name is an
identifier that is not a reserved word, a literal is neither negative nor a NaN, and a
return ends the body.  `Function.Writable` says so, and `check` gives nothing else.
-/
import TallyLang.Compiler
import TallyLang.Proofs.MaximalMunch
import TallyLang.Proofs.Scope
import TallyLang.Proofs.Grammar.Functions

namespace TallyLang

/-- An identifier that is not a reserved word. -/
def isName (s : String) : Bool := isIdentifier s && (Keyword.ofText? s).isNone

/-- Neither negative nor a NaN; such is every number that a literal stands for. -/
def Binary64.isUnsigned (x : Binary64) : Bool := !x.negative && !x.isNaN

/-- Whether a source can hold the token. -/
def Token.isWritable : Token → Bool
  | .ident name => isName name
  | .number value => value.isUnsigned
  | _ => true

/-- An expression that a source can write. -/
inductive Expr.Writable : Expr → Prop where
  | num {value : Binary64} (hvalue : value.isUnsigned = true) : Writable (.num value)
  | var {name : String} (hname : isName name = true) : Writable (.var name)
  | bin {op : Operator} {left right : Expr} {loc : Location} (hop : op.isSupported = true)
      (hleft : Writable left) (hright : Writable right) : Writable (.bin op left right loc)
  | ret {value : Expr} {loc : Location} (hvalue : Writable value) : Writable (.ret value loc)

/-- A function that a source can write. -/
structure Function.Writable (f : Function) : Prop where
  name : isName f.name = true
  params : ∀ p ∈ f.params, isName p = true
  distinct : f.params.Nodup
  body : ∀ e ∈ f.body, e.Writable
  /-- A return ends the body. -/
  returnLast : ∀ e ∈ f.body.dropLast, e.isReturn = false

/-! ### Tokens of a source -/

/-- No literal is so large that it runs into the sign bit. -/
theorem isUnsigned_toBinary64 (d : Decimal) : d.toBinary64.isUnsigned = true := by
  unfold Decimal.toBinary64 Binary64.nearest
  generalize Binary64.patternOf _ _ = pattern
  have hle : min pattern Binary64.infinityBits ≤ Binary64.infinityBits := Nat.min_le_right _ _
  have hinfinity : Binary64.infinityBits < 2 ^ 63 := by decide
  have hbits : (UInt64.ofNat (min pattern Binary64.infinityBits)).toNat =
      min pattern Binary64.infinityBits :=
    UInt64.toNat_ofNat_of_lt (Nat.lt_of_le_of_lt hle (by decide))
  simp only [Binary64.isUnsigned, Binary64.negative, Binary64.isNaN, Binary64.magnitude, hbits,
    Nat.pow_eq]
  rw [Nat.mod_eq_of_lt (by omega)]
  simp
  omega

/-- Whatever rule makes a token, a source can hold it. -/
theorem Rule.isWritable_of_takes {r : Rule} {lexeme rest : List Char} {t : Token}
    (h : r.Takes lexeme rest) (hkind : r.kind lexeme = .token t) : t.isWritable = true := by
  cases r with
  | name =>
      cases hkind
      obtain ⟨c, cs, rfl, hstart, hparts⟩ := mem_name.mp h.isMatch
      have hident : isIdentifier (String.ofList (c :: cs)) = true := by
        rw [isIdentifier, String.toList_ofList]
        exact Bool.and_eq_true_iff.mpr ⟨hstart, List.all_eq_true.mpr hparts⟩
      have hkeyword : Keyword.ofText? (String.ofList (c :: cs)) = none := by
        cases hfound : Keyword.ofText? (String.ofList (c :: cs)) with
        | none => rfl
        | some k =>
            have htext := List.find?_some hfound
            simp only [decide_eq_true_eq] at htext
            refine absurd ?_ (h.preferred.resolve_left Bool.false_ne_true (keyword k) rfl)
            rw [pattern, mem_exactly, htext, String.toList_ofList]
      rw [Token.isWritable, isName, hident, hkeyword]
      rfl
  | number =>
      cases hkind
      exact isUnsigned_toBinary64 _
  | keyword k =>
      cases hkind
      rfl
  | symbol s =>
      cases hkind
      rfl
  | _ => cases hkind

theorem isWritable_of_mem_tokensOf {source : String} {t : LocatedToken}
    (h : t ∈ tokensOf source) : t.token.isWritable = true := by
  have hmem : t.token ∈ (tokensOf source).map LocatedToken.token := List.mem_map_of_mem h
  rw [tokensOf, Scanner.drain, map_token_drainFrom, List.mem_append] at hmem
  rcases hmem with htoken | heof
  · refine (munches_pieces source.toList).forall_token (P := fun t => t.isWritable = true) ?_
      (fun _ _ _ => rfl) _ htoken
    intro r lexeme rest t htakes hkind
    exact Rule.isWritable_of_takes htakes hkind
  · rw [List.mem_singleton.mp heof]
    rfl

/-! ### Trees of a source -/

theorem isSupported_of_mem_operators {layer : Layer} {symbol : Symbol} {op : Operator}
    (h : (symbol, op) ∈ layer.operators) : op.isSupported = true := by
  cases layer <;> simp [Layer.operators] at h <;> grind [Operator.isSupported]

/-- What is derived from tokens of a source can be written. -/
theorem Derives.writable {layer : Layer} {word : List LocatedToken} {next : Token} {e : Expr}
    (h : Derives layer word next e) :
    (∀ t ∈ word, t.token.isWritable = true) → e.Writable := by
  induction h with
  | number =>
      intro hword
      exact .num (hword _ List.mem_cons_self)
  | name =>
      intro hword
      exact .var (hword _ List.mem_cons_self)
  | paren _ ih =>
      intro hword
      exact ih fun t ht => hword t (by simp [ht])
  | returnClosed _ ih =>
      intro hword
      exact .ret (ih fun t ht => hword t (by simp [ht]))
  | returnOpen _ _ _ ih =>
      intro hword
      exact .ret (ih fun t ht => hword t (by simp [ht]))
  | lift _ ih => exact ih
  | binary hwritten _ _ ihleft ihright =>
      intro hword
      exact .bin (isSupported_of_mem_operators hwritten)
        (ihleft fun t ht => hword t (by simp [ht])) (ihright fun t ht => hword t (by simp [ht]))

theorem DerivesBody.writable {body : List LocatedToken} {es : List Expr}
    (h : DerivesBody body es) :
    (∀ t ∈ body, t.token.isWritable = true) →
      (∀ e ∈ es, e.Writable) ∧ ∀ e ∈ es.dropLast, e.isReturn = false := by
  induction h with
  | nil =>
      intro _
      simp
  | @statement word rest loc e es expr other _ ih =>
      intro hbody
      obtain ⟨hwritable, hlast⟩ := ih fun t ht => hbody t (by simp [ht])
      refine ⟨?_, ?_⟩
      · intro e' he'
        rcases List.mem_cons.mp he' with rfl | he'
        · exact expr.writable fun t ht => hbody t (by simp [ht])
        · exact hwritable e' he'
      · intro e' he'
        cases es with
        | nil => cases he'
        | cons e'' es =>
            rcases List.mem_cons.mp he' with rfl | he'
            · exact other
            · exact hlast e' he'
  | final expr _ _ _ _ =>
      intro hbody
      refine ⟨?_, by simp⟩
      intro e' he'
      rw [List.mem_singleton.mp he']
      exact expr.writable fun t ht => hbody t (by simp [ht])

theorem DerivesNames.isName_of_mem {word : List LocatedToken} {ps : List String}
    (h : DerivesNames word ps) :
    (∀ t ∈ word, t.token.isWritable = true) → ∀ p ∈ ps, isName p = true := by
  induction h with
  | single =>
      intro hword p hp
      rw [List.mem_singleton.mp hp]
      exact hword _ List.mem_cons_self
  | trailing =>
      intro hword p hp
      rw [List.mem_singleton.mp hp]
      exact hword _ List.mem_cons_self
  | cons _ ih =>
      intro hword p hp
      rcases List.mem_cons.mp hp with rfl | hp
      · exact hword _ List.mem_cons_self
      · exact ih (fun t ht => hword t (by simp [ht])) p hp

theorem DerivesFunction.writable {word : List LocatedToken} {f : Function}
    (h : DerivesFunction word f) (hword : ∀ t ∈ word, t.token.isWritable = true) : f.Writable := by
  obtain ⟨hparams, hbody⟩ := h
  obtain ⟨hwritable, hlast⟩ := hbody.writable fun t ht => hword t (by simp [ht])
  have hname := hword _ (List.mem_cons_of_mem _ List.mem_cons_self)
  cases hparams with
  | nil => exact ⟨hname, by simp, List.nodup_nil, hwritable, hlast⟩
  | names hnames hdistinct =>
      exact ⟨hname, hnames.isName_of_mem fun t ht => hword t (by simp [ht]), hdistinct, hwritable,
        hlast⟩

/-! ### Checked functions -/

/-- **A function that was read from a source can be written.** -/
theorem writable_of_check {source : String} {f : Function} (h : check source = .ok f) :
    f.Writable := by
  unfold check parse at h
  cases hread : readFunction (closed (tokensOf source)) with
  | failed error rest =>
      rw [hread] at h
      cases h
  | done g rest =>
      rw [hread] at h
      cases h
      obtain ⟨word, heq, hderives⟩ := derivesFunction_of_readFunction hread
      refine hderives.writable fun t ht => ?_
      have hclosed : t ∈ closed (tokensOf source) := by
        rw [heq]
        exact List.mem_append_left rest ht
      unfold closed at hclosed
      split at hclosed
      · exact isWritable_of_mem_tokensOf hclosed
      · rcases List.mem_append.mp hclosed with htoken | heof
        · exact isWritable_of_mem_tokensOf htoken
        · rw [List.mem_singleton.mp heof]
          rfl

theorem Expr.Writable.isName_of_mem_reads {e : Expr} (h : e.Writable) :
    ∀ x ∈ e.reads, isName x = true := by
  induction h with
  | num _ =>
      intro x hx
      cases hx
  | var hname =>
      intro x hx
      rw [List.mem_singleton.mp hx]
      exact hname
  | bin _ _ _ ihleft ihright =>
      intro x hx
      rcases List.mem_append.mp hx with hx | hx
      · exact ihleft x hx
      · exact ihright x hx
  | ret _ ih => exact ih

theorem isName_of_mem_readsOf {es : List Expr} (h : ∀ e ∈ es, e.Writable) :
    ∀ x ∈ Expr.readsOf es, isName x = true := by
  induction es with
  | nil =>
      intro x hx
      cases hx
  | cons e es ih =>
      intro x hx
      rcases List.mem_append.mp hx with hx | hx
      · exact (h e List.mem_cons_self).isName_of_mem_reads x hx
      · exact ih (fun e' he' => h e' (List.mem_cons_of_mem e he')) x hx

/-- The names of a function that was read from a source are identifiers. -/
theorem named_of_check {source : String} {f : Function} (h : check source = .ok f) : f.Named := by
  have hwritable := writable_of_check h
  have hident : ∀ name, isName name = true → isIdentifier name = true :=
    fun name hname => (Bool.and_eq_true_iff.mp hname).1
  exact ⟨hident _ hwritable.name, fun p hp => hident p (hwritable.params p hp),
    fun x hx => hident x (isName_of_mem_readsOf hwritable.body x hx)⟩

theorem nodup_params_of_check {source : String} {f : Function} (h : check source = .ok f) :
    f.params.Nodup :=
  (writable_of_check h).distinct

end TallyLang
