/-
Command lines with one more `-v`.

A use of `-v` is an argument `-v` or `--verbose`, or a letter in an argument such as `-vv`, in
front of `--` and not in the place of the value of `-o`.  `Louder` relates the arguments read
so far without and with one more use.  They need not go in step: a use looks at the value
that is held back, which else would have been looked at later.

If that value is in order, every step keeps the relation or fails alike on both sides
(`Louder.take`), so that in the end the options differ in their verbosity only.  If it is not,
the line is refused with the use.  Without it the line is refused as well, whatever follows
(`Spoiled.foldlM_take`), but perhaps for another reason that comes first.
-/
import TallyLang.CommandLine.Arguments

namespace TallyLang

/-! ### Two readings side by side -/

/-- Two readings that give related results, that stop for the same reason, or that are both refused. -/
inductive Alike {α : Type} (R : α → α → Prop) : Except Halt α → Except Halt α → Prop
  | ok {a b : α} (h : R a b) : Alike R (.ok a) (.ok b)
  | error (halt : Halt) : Alike R (.error halt) (.error halt)
  | refused (e e' : UsageError) : Alike R (.error (.misuse e)) (.error (.misuse e'))

theorem Alike.bind {α β : Type} {R : α → α → Prop} {S : β → β → Prop} {x y : Except Halt α}
    {f g : α → Except Halt β} (h : Alike R x y) (hnext : ∀ a b, R a b → Alike S (f a) (g b)) :
    Alike S (x >>= f) (y >>= g) := by
  cases h with
  | ok h => exact hnext _ _ h
  | error halt => exact .error halt
  | refused e e' => exact .refused e e'

theorem Alike.mono {α : Type} {R S : α → α → Prop} {x y : Except Halt α} (h : Alike R x y)
    (himp : ∀ a b, x = .ok a → R a b → S a b) : Alike S x y := by
  cases h with
  | ok h => exact .ok (himp _ _ rfl h)
  | error halt => exact .error halt
  | refused e e' => exact .refused e e'

theorem Alike.symm {α : Type} {R : α → α → Prop} {x y : Except Halt α} (h : Alike R x y) :
    Alike (fun a b => R b a) y x := by
  cases h with
  | ok h => exact .ok h
  | error halt => exact .error halt
  | refused e e' => exact .refused e' e

theorem Alike.trans {α : Type} {R S T : α → α → Prop} {x y z : Except Halt α} (h : Alike R x y)
    (h' : Alike S y z) (himp : ∀ a b c, R a b → S b c → T a c) : Alike T x z := by
  cases h with
  | ok h =>
      cases h' with
      | ok h' => exact .ok (himp _ _ _ h h')
  | error halt =>
      cases h' with
      | error => exact .error halt
      | refused e e' => exact .refused e e'
  | refused e e' =>
      cases h' with
      | error => exact .refused e e'
      | refused _ e'' => exact .refused e e''

theorem Alike.foldlM {α β : Type} {R : α → α → Prop} {f : α → β → Except Halt α}
    (hstep : ∀ a b x, R a b → Alike R (f a x) (f b x)) (xs : List β) :
    ∀ {a b : α}, R a b → Alike R (xs.foldlM f a) (xs.foldlM f b) := by
  induction xs with
  | nil =>
      intro a b h
      exact .ok h
  | cons x xs ih =>
      intro a b h
      rw [List.foldlM_cons, List.foldlM_cons]
      exact (hstep a b x h).bind fun a b h => ih h

/-! ### One more use -/

/-- The same options, but for `k` uses more. -/
def Options.louder (o : Options) (k : Nat) : Options := { o with verbose := o.verbose + k }

namespace ArgState

/-- The same arguments, but for one use more. -/
def louder (s : ArgState) : ArgState := { s with options := s.options.louder 1 }

/-- The second is the first with one use more. -/
def InStep (s s' : ArgState) : Prop := s' = s.louder

/-- What comes of arguments without and with one use more.  With it, the value that is held back
may have been looked at already. -/
inductive Louder : ArgState → ArgState → Prop
  | inStep (s : ArgState) : Louder s s.louder
  | ahead {s t : ArgState} (h : s.settle = .ok t) : Louder s t.louder

theorem setOutput_louder (s : ArgState) (value : String) :
    Alike InStep (s.setOutput value) (s.louder.setOutput value) := by
  have houtput : s.louder.options.output = s.options.output := rfl
  unfold setOutput
  rw [houtput]
  by_cases hset : s.options.output.isSome = true
  · rw [if_pos hset, if_pos hset]
    exact .error _
  rw [if_neg hset, if_neg hset]
  by_cases hempty : value.isEmpty = true
  · rw [if_pos hempty, if_pos hempty]
    exact .error _
  · rw [if_neg hempty, if_neg hempty]
    exact .ok rfl

theorem settle_louder (s : ArgState) : Alike InStep s.settle s.louder.settle := by
  obtain ⟨o, held, hasInput, switchesEnded⟩ := s
  cases held with
  | none => exact .ok rfl
  | some held =>
      cases held with
      | input value =>
          simp only [settle, louder]
          split
          · exact .error _
          · exact .ok rfl
      | output value? =>
          cases value? with
          | none => exact .error _
          | some value => exact setOutput_louder _ value

/-- Looking at the value that is held back changes the options, and then none is held back; or it is
an error in the arguments. -/
theorem settle_cases (s : ArgState) :
    (s.held ≠ some (.output none) ∧ ∃ o, s.settle = .ok { s with options := o, held := none }) ∨
      ∃ e, s.settle = .error (.misuse e) := by
  obtain ⟨o, held, hasInput, switchesEnded⟩ := s
  cases held with
  | none => exact Or.inl ⟨by simp, o, rfl⟩
  | some held =>
      cases held with
      | input value =>
          by_cases hempty : value.isEmpty = true
          · exact Or.inr ⟨_, if_pos hempty⟩
          · exact Or.inl ⟨by simp, _, if_neg hempty⟩
      | output value? =>
          cases value? with
          | none => exact Or.inr ⟨_, rfl⟩
          | some value =>
              by_cases hset : o.output.isSome = true
              · exact Or.inr ⟨_, if_pos hset⟩
              by_cases hempty : value.isEmpty = true
              · exact Or.inr ⟨_, (if_neg hset).trans (if_pos hempty)⟩
              · exact Or.inl ⟨by simp, _, (if_neg hset).trans (if_neg hempty)⟩

theorem settle_eq_ok {s t : ArgState} (h : s.settle = .ok t) :
    (∃ o, t = { s with options := o, held := none }) ∧ s.held ≠ some (.output none) := by
  rcases s.settle_cases with ⟨hheld, o, hok⟩ | ⟨e, herror⟩
  · rw [h] at hok
    exact ⟨⟨o, Except.ok.inj hok⟩, hheld⟩
  · rw [h] at herror
    cases herror

theorem settle_eq_error {s : ArgState} {halt : Halt} (h : s.settle = .error halt) :
    ∃ e, halt = .misuse e := by
  rcases s.settle_cases with ⟨-, o, hok⟩ | ⟨e, herror⟩
  · rw [h] at hok
    cases hok
  · rw [h] at herror
    exact ⟨e, Except.error.inj herror⟩

/-- It does not matter whether switches have ended. -/
theorem settle_switchesEnded (s : ArgState) :
    ArgState.settle { s with switchesEnded := true } =
      s.settle.map fun t => { t with switchesEnded := true } := by
  obtain ⟨o, held, hasInput, switchesEnded⟩ := s
  cases held with
  | none => rfl
  | some held =>
      cases held with
      | input value =>
          simp only [settle]
          split <;> rfl
      | output value? =>
          cases value? with
          | none => rfl
          | some value =>
              simp only [settle, setOutput]
              split
              · rfl
              · split <;> rfl

/-- Where no value is waited for, an argument that is not a switch is an input. -/
theorem takePlain_eq {s : ArgState} (h : s.held ≠ some (.output none)) (arg : String) :
    s.takePlain arg = s.takeInput arg := by
  unfold takePlain
  split
  · exact absurd ‹_› h
  · rfl

namespace Louder

variable {s s' : ArgState}

theorem of_inStep (h : InStep s s') : Louder s s' := by
  rw [h]
  exact .inStep s

/-- Once the value is looked at on both sides, they are in step. -/
theorem settle (h : Louder s s') : Alike InStep s.settle s'.settle := by
  cases h with
  | inStep => exact s.settle_louder
  | ahead h =>
      obtain ⟨⟨o, rfl⟩, -⟩ := settle_eq_ok h
      rw [h]
      exact .ok rfl

theorem hasInput_eq (h : Louder s s') : s'.hasInput = s.hasInput := by
  cases h with
  | inStep => rfl
  | ahead h =>
      obtain ⟨⟨o, rfl⟩, -⟩ := settle_eq_ok h
      rfl

theorem switchesEnded_eq (h : Louder s s') : s'.switchesEnded = s.switchesEnded := by
  cases h with
  | inStep => rfl
  | ahead h =>
      obtain ⟨⟨o, rfl⟩, -⟩ := settle_eq_ok h
      rfl

/-- Both sides wait for the value of the output, and then they are in step, or neither does. -/
theorem awaits_or (h : Louder s s') :
    s.held = some (.output none) ∧ s' = s.louder ∨
      s.held ≠ some (.output none) ∧ s'.held ≠ some (.output none) := by
  cases h with
  | inStep =>
      by_cases hheld : s.held = some (.output none)
      · exact Or.inl ⟨hheld, rfl⟩
      · exact Or.inr ⟨hheld, hheld⟩
  | ahead h =>
      obtain ⟨⟨o, rfl⟩, hheld⟩ := settle_eq_ok h
      exact Or.inr ⟨hheld, by simp [louder]⟩

/-- A switch that may be on once and has nothing to do with the verbosity. -/
theorem switchOn (s : ArgState) (switch : Switch) {isOn : Options → Bool}
    {turnOn : Options → Options} (hisOn : ∀ o, isOn (o.louder 1) = isOn o)
    (hturnOn : ∀ o, turnOn (o.louder 1) = (turnOn o).louder 1) :
    Alike Louder (s.switchOn switch isOn turnOn) (s.louder.switchOn switch isOn turnOn) := by
  unfold ArgState.switchOn
  show Alike Louder _ (if isOn (s.options.louder 1) then _ else
    .ok { s with options := turnOn (s.options.louder 1) })
  rw [hisOn, hturnOn]
  split
  · exact .error _
  · exact .ok (.inStep _)

theorem takeSwitch (h : Louder s s') (switch : Switch) :
    Alike Louder (s.takeSwitch switch) (s'.takeSwitch switch) := by
  refine h.settle.bind ?_
  rintro a _ rfl
  cases switch with
  | output => exact .ok (.inStep _)
  | dumpTokens => exact switchOn a .dumpTokens (fun _ => rfl) (fun _ => rfl)
  | dumpAst => exact switchOn a .dumpAst (fun _ => rfl) (fun _ => rfl)
  | frame => exact switchOn a .frame (fun _ => rfl) (fun _ => rfl)
  | prompt => exact switchOn a .prompt (fun _ => rfl) (fun _ => rfl)
  | verbose => exact .ok (.inStep _)
  | help => exact .error _
  | version => exact .error _

theorem settle_setOutput (h : Louder s s') (value : String) :
    Alike Louder (do (← s.settle).setOutput value) (do (← s'.settle).setOutput value) := by
  refine h.settle.bind ?_
  rintro a _ rfl
  exact (setOutput_louder a value).mono fun _ _ _ => of_inStep

theorem takeAttached (h : Louder s s') (switch : Switch) (value : String) :
    Alike Louder (s.takeAttached switch value) (s'.takeAttached switch value) := by
  cases switch with
  | output => exact h.settle_setOutput value
  | _ => exact .error _

theorem takeLong (h : Louder s s') (tool : Tool) (rest : List Char) :
    Alike Louder (s.takeLong tool rest) (s'.takeLong tool rest) := by
  unfold ArgState.takeLong
  simp only
  cases tool.long? (String.ofList (rest.takeWhile (· ≠ '='))) with
  | none => exact .error _
  | some switch =>
      cases rest.dropWhile (· ≠ '=') with
      | nil => exact h.takeSwitch switch
      | cons _ value => exact h.takeAttached switch (String.ofList value)

theorem takeLetters (tool : Tool) (letters : List Char) : ∀ {s s' : ArgState}, Louder s s' →
    Alike Louder (s.takeLetters tool letters) (s'.takeLetters tool letters) := by
  induction letters with
  | nil =>
      intro s s' h
      exact .ok h
  | cons c rest ih =>
      intro s s' h
      unfold ArgState.takeLetters
      split
      · exact .error _
      · split
        · exact h.takeSwitch .output
        · exact h.settle_setOutput _
        · exact h.settle_setOutput _
      · exact (h.takeSwitch _).bind fun a b h => ih h

theorem takeInput (h : Louder s s') (arg : String) :
    Alike Louder (s.takeInput arg) (s'.takeInput arg) := by
  unfold ArgState.takeInput
  rw [h.hasInput_eq]
  split
  · exact .error _
  · refine h.settle.bind ?_
    rintro a _ rfl
    exact .ok (.inStep _)

theorem takePlain (h : Louder s s') (arg : String) :
    Alike Louder (s.takePlain arg) (s'.takePlain arg) := by
  rcases h.awaits_or with ⟨hheld, rfl⟩ | ⟨hheld, hheld'⟩
  · have hheld' : s.louder.held = some (.output none) := hheld
    rw [ArgState.takePlain, ArgState.takePlain, hheld, hheld']
    exact .ok (.inStep _)
  · rw [takePlain_eq hheld, takePlain_eq hheld']
    exact h.takeInput arg

/-- **Every argument keeps the two readings related, or ends both.** -/
theorem take (tool : Tool) (h : Louder s s') (arg : String) :
    Alike Louder (s.take tool arg) (s'.take tool arg) := by
  unfold ArgState.take
  rw [h.switchesEnded_eq]
  split
  · exact h.takeInput arg
  split
  · cases h with
    | inStep => exact .ok (.inStep _)
    | @ahead t h =>
        have hsettle : ArgState.settle { s with switchesEnded := true } =
            .ok { t with switchesEnded := true } := by
          rw [settle_switchesEnded, h]
          rfl
        exact .ok (.ahead hsettle)
  · exact h.takeLong tool _
  · exact h.takePlain arg
  · exact h.takeLetters tool _
  · exact h.takePlain arg

end Louder

/-- A letter that takes no value is taken by itself. -/
theorem takeLetters_cons {tool : Tool} {c : Char} {switch : Switch}
    (hfound : tool.short? c = some switch) (hswitch : switch ≠ .output) (s : ArgState)
    (rest : List Char) :
    s.takeLetters tool (c :: rest) = s.takeSwitch switch >>= fun t => t.takeLetters tool rest := by
  conv =>
    lhs
    unfold takeLetters
  rw [hfound]
  cases switch with
  | output => exact absurd rfl hswitch
  | _ => rfl

theorem takeLetters_append (tool : Tool) {front : List Char}
    (hfront : ∀ c ∈ front, tool.short? c ≠ some .output) (back : List Char) :
    ∀ s : ArgState, s.takeLetters tool (front ++ back) =
      s.takeLetters tool front >>= fun t => t.takeLetters tool back := by
  induction front with
  | nil =>
      intro s
      rfl
  | cons c front ih =>
      intro s
      have hc := hfront c List.mem_cons_self
      have hrest := ih fun d hd => hfront d (List.mem_cons_of_mem c hd)
      rw [List.cons_append]
      cases hfound : tool.short? c with
      | none =>
          unfold takeLetters
          rw [hfound]
          rfl
      | some switch =>
          have hswitch : switch ≠ .output := by
            rintro rfl
            exact hc hfound
          rw [takeLetters_cons hfound hswitch, takeLetters_cons hfound hswitch, bind_assoc]
          simp only [hrest]

theorem short?_v (tool : Tool) : tool.short? 'v' = some .verbose := by
  cases tool <;> rfl

/-- A switch looks at the value that is held back. -/
theorem takeSwitch_of_error {s : ArgState} {halt : Halt} (h : s.settle = .error halt)
    (switch : Switch) : s.takeSwitch switch = .error halt := by
  rw [takeSwitch, h]
  rfl

theorem takeSwitch_verbose {s t : ArgState} (h : s.settle = .ok t) :
    s.takeSwitch .verbose = .ok t.louder := by
  rw [takeSwitch, h]
  rfl

/-- Behind a switch without a value none is held back. -/
theorem held_of_takeSwitch {s t : ArgState} {switch : Switch} (hswitch : switch ≠ .output)
    (h : s.takeSwitch switch = .ok t) : t.held = none := by
  obtain ⟨u, hsettle, h⟩ := exists_of_bind_eq_ok h
  obtain ⟨⟨o, rfl⟩, -⟩ := settle_eq_ok hsettle
  have hon : ∀ {isOn : Options → Bool} {turnOn : Options → Options},
      switchOn { s with options := o, held := none } switch isOn turnOn = .ok t → t.held = none := by
    intro isOn turnOn hon
    unfold switchOn at hon
    split at hon
    · cases hon
    · cases hon
      rfl
  cases switch with
  | output => exact absurd rfl hswitch
  | dumpTokens => exact hon h
  | dumpAst => exact hon h
  | frame => exact hon h
  | prompt => exact hon h
  | verbose =>
      cases h
      rfl
  | help => cases h
  | version => cases h

/-- Letters without that of the output leave no value to wait for. -/
theorem held_of_takeLetters (tool : Tool) {letters : List Char}
    (hletters : ∀ c ∈ letters, tool.short? c ≠ some .output) : ∀ {s t : ArgState},
      s.held ≠ some (.output none) → s.takeLetters tool letters = .ok t →
        t.held ≠ some (.output none) := by
  induction letters with
  | nil =>
      intro s t hs h
      cases h
      exact hs
  | cons c letters ih =>
      intro s t hs h
      cases hfound : tool.short? c with
      | none =>
          unfold takeLetters at h
          rw [hfound] at h
          cases h
      | some switch =>
          have hswitch : switch ≠ .output := by
            rintro rfl
            exact hletters c List.mem_cons_self hfound
          rw [takeLetters_cons hfound hswitch] at h
          obtain ⟨u, hswitched, h⟩ := exists_of_bind_eq_ok h
          refine ih (fun d hd => hletters d (List.mem_cons_of_mem c hd)) ?_ h
          simp [held_of_takeSwitch hswitch hswitched]

/-! ### Lines that will be refused -/

/-- The value that is held back is not in order. -/
def Spoiled (s : ArgState) : Prop :=
  s.held ≠ some (.output none) ∧ ∃ e, s.settle = .error (.misuse e)

/-- A reading that is refused, or that will be. -/
inductive Doomed : Except Halt ArgState → Prop
  | refused (e : UsageError) : Doomed (.error (.misuse e))
  | spoiled {s : ArgState} (h : s.Spoiled) : Doomed (.ok s)

namespace Spoiled

variable {s : ArgState}

theorem settle_bind (h : s.Spoiled) (next : ArgState → Except Halt ArgState) :
    Doomed (s.settle >>= next) := by
  obtain ⟨-, e, hsettle⟩ := h
  rw [hsettle]
  exact .refused e

theorem takeLong (h : s.Spoiled) (tool : Tool) (rest : List Char) :
    Doomed (s.takeLong tool rest) := by
  unfold ArgState.takeLong
  simp only
  cases tool.long? (String.ofList (rest.takeWhile (· ≠ '='))) with
  | none => exact .refused _
  | some switch =>
      cases rest.dropWhile (· ≠ '=') with
      | nil => exact h.settle_bind _
      | cons _ value =>
          cases switch with
          | output => exact h.settle_bind _
          | _ => exact .refused _

theorem takeLetters (h : s.Spoiled) (tool : Tool) (letters : List Char) :
    Doomed (s.takeLetters tool letters) := by
  cases letters with
  | nil => exact .spoiled h
  | cons c rest =>
      have ⟨_, e, hsettle⟩ := h
      unfold ArgState.takeLetters
      split
      · exact .refused _
      · split
        · exact h.settle_bind _
        · exact h.settle_bind _
        · exact h.settle_bind _
      · rw [takeSwitch_of_error hsettle]
        exact .refused e

theorem takeInput (h : s.Spoiled) (arg : String) : Doomed (s.takeInput arg) := by
  unfold ArgState.takeInput
  split
  · exact .refused _
  · exact h.settle_bind _

theorem takePlain (h : s.Spoiled) (arg : String) : Doomed (s.takePlain arg) := by
  rw [takePlain_eq h.1]
  exact h.takeInput arg

theorem take (h : s.Spoiled) (tool : Tool) (arg : String) : Doomed (s.take tool arg) := by
  unfold ArgState.take
  split
  · exact h.takeInput arg
  split
  · obtain ⟨hheld, e, hsettle⟩ := h
    refine .spoiled ⟨hheld, e, ?_⟩
    rw [settle_switchesEnded, hsettle]
    rfl
  · exact h.takeLong tool _
  · exact h.takePlain arg
  · exact h.takeLetters tool _
  · exact h.takePlain arg

/-- Whatever follows a value that is not in order, the line is refused. -/
theorem foldlM_take (tool : Tool) (args : List String) : ∀ {s : ArgState}, s.Spoiled →
    Doomed (args.foldlM (ArgState.take tool) s) := by
  induction args with
  | nil =>
      intro s h
      exact .spoiled h
  | cons arg args ih =>
      intro s h
      have htake := h.take tool arg
      rw [List.foldlM_cons]
      generalize s.take tool arg = x at htake ⊢
      cases htake with
      | refused e => exact .refused e
      | spoiled h => exact ih h

end Spoiled

/-- What the arguments ask for that come after those read so far. -/
def readOn (tool : Tool) (args : List String) (s : ArgState) : Except Halt Options :=
  args.foldlM (ArgState.take tool) s >>= fun s => s.settle >>= fun s => pure s.options

theorem readOn_append (tool : Tool) (before after : List String) (s : ArgState) :
    s.readOn tool (before ++ after) = before.foldlM (ArgState.take tool) s >>= readOn tool after := by
  rw [readOn, List.foldlM_append, bind_assoc]
  rfl

theorem readOn_cons (tool : Tool) (arg : String) (after : List String) (s : ArgState) :
    s.readOn tool (arg :: after) = s.take tool arg >>= readOn tool after := by
  rw [readOn, List.foldlM_cons, bind_assoc]
  rfl

theorem Doomed.readOn {x : Except Halt ArgState} (h : Doomed x) (tool : Tool) (after : List String) :
    ∃ e, x >>= ArgState.readOn tool after = .error (.misuse e) := by
  cases h with
  | refused e => exact ⟨e, rfl⟩
  | @spoiled s h =>
      have hread := Spoiled.foldlM_take tool after h
      show ∃ e, s.readOn tool after = .error (.misuse e)
      unfold ArgState.readOn
      generalize after.foldlM (ArgState.take tool) s = x at hread ⊢
      cases hread with
      | refused e => exact ⟨e, rfl⟩
      | @spoiled s h =>
          obtain ⟨-, e, hsettle⟩ := h
          refine ⟨e, ?_⟩
          show (s.settle >>= _) = _
          rw [hsettle]
          rfl

/-- What comes of arguments without and with one use more: they are related, or the use is refused
and its lack will be. -/
inductive Compares : Except Halt ArgState → Except Halt ArgState → Prop
  | alike {x y : Except Halt ArgState} (h : Alike Louder x y) : Compares x y
  | doomed {x : Except Halt ArgState} (h : Doomed x) (e : UsageError) : Compares x (.error (.misuse e))

theorem Compares.readOn {x y : Except Halt ArgState} (h : Compares x y) (tool : Tool)
    (after : List String) :
    Alike (fun o o' : Options => o' = o.louder 1) (x >>= ArgState.readOn tool after)
      (y >>= ArgState.readOn tool after) := by
  cases h with
  | alike h =>
      refine h.bind fun s s' h => ?_
      refine (Alike.foldlM (fun _ _ arg h => h.take tool arg) after h).bind fun s s' h => ?_
      refine h.settle.bind ?_
      rintro a _ rfl
      exact .ok rfl
  | doomed h e =>
      obtain ⟨e', he'⟩ := h.readOn tool after
      rw [he']
      exact .refused e' e

end ArgState

/-! ### Command lines -/

/-- Whether a switch may follow the arguments: none of them is `--`, and no `-o` still waits for its
value. -/
def Tool.switchMayFollow (tool : Tool) (before : List String) : Bool :=
  match before.foldlM (ArgState.take tool) {} with
  | .ok s => !s.switchesEnded && decide (s.held ≠ some (.output none))
  | .error _ => true

/-- The second command line is the first with one more use of `-v` where a switch may stand.  It may
be an argument, or a letter among others in front of that of the output. -/
inductive AddsUse (tool : Tool) : List String → List String → Prop
  | argument {before after : List String} {use : String} (huse : use = "-v" ∨ use = "--verbose")
      (hplace : tool.switchMayFollow before = true) :
      AddsUse tool (before ++ after) (before ++ use :: after)
  | letter {before after : List String} {c : Char} {front back letters : List Char}
      (hletters : front ++ back = c :: letters) (hc : c ≠ '-')
      (hfront : ∀ d ∈ front, tool.short? d ≠ some .output)
      (hplace : tool.switchMayFollow before = true) :
      AddsUse tool (before ++ String.ofList ('-' :: (front ++ back)) :: after)
        (before ++ String.ofList ('-' :: (front ++ 'v' :: back)) :: after)

open ArgState (Louder Compares)

theorem place_of_switchMayFollow {tool : Tool} {before : List String} {s : ArgState}
    (h : tool.switchMayFollow before = true) (hs : before.foldlM (ArgState.take tool) {} = .ok s) :
    s.switchesEnded = false ∧ s.held ≠ some (.output none) := by
  rw [Tool.switchMayFollow, hs] at h
  simpa using h

/-- An argument that is a use by itself. -/
theorem take_use {tool : Tool} {use : String} (huse : use = "-v" ∨ use = "--verbose")
    {s : ArgState} (hended : s.switchesEnded = false) :
    s.take tool use = s.takeSwitch .verbose := by
  rcases huse with rfl | rfl
  · have htake : s.take tool "-v" = s.takeLetters tool ['v'] := by
      rw [ArgState.take, hended]
      rfl
    rw [htake, ArgState.takeLetters_cons (ArgState.short?_v tool) (by decide)]
    cases s.takeSwitch .verbose <;> rfl
  · rw [ArgState.take, hended]
    cases tool <;> rfl

/-- An argument of letters. -/
theorem take_letters {tool : Tool} {s : ArgState} (hended : s.switchesEnded = false) {c : Char}
    (hc : c ≠ '-') (letters : List Char) :
    s.take tool (String.ofList ('-' :: c :: letters)) = s.takeLetters tool (c :: letters) := by
  rw [ArgState.take, hended, String.toList_ofList]
  simp [hc]

theorem compares_use {tool : Tool} {use : String} (huse : use = "-v" ∨ use = "--verbose")
    {s : ArgState} (hended : s.switchesEnded = false) (hheld : s.held ≠ some (.output none)) :
    Compares (.ok s) (s.take tool use) := by
  rw [take_use huse hended]
  cases hsettle : s.settle with
  | ok t =>
      rw [ArgState.takeSwitch_verbose hsettle]
      exact .alike (.ok (.ahead hsettle))
  | error halt =>
      obtain ⟨e, rfl⟩ := ArgState.settle_eq_error hsettle
      rw [ArgState.takeSwitch_of_error hsettle]
      exact .doomed (.spoiled ⟨hheld, e, hsettle⟩) e

/-- One more letter in an argument of letters. -/
theorem compares_moreLetters {tool : Tool} {s : ArgState} (hended : s.switchesEnded = false)
    (hheld : s.held ≠ some (.output none)) {c : Char} {front back letters : List Char}
    (hletters : front ++ back = c :: letters) (hc : c ≠ '-')
    (hfront : ∀ d ∈ front, tool.short? d ≠ some .output) :
    Compares (s.take tool (String.ofList ('-' :: (front ++ back))))
      (s.take tool (String.ofList ('-' :: (front ++ 'v' :: back)))) := by
  have hfewer : s.take tool (String.ofList ('-' :: (front ++ back))) =
      s.takeLetters tool (front ++ back) := by
    rw [hletters]
    exact take_letters hended hc letters
  have hmore : s.take tool (String.ofList ('-' :: (front ++ 'v' :: back))) =
      s.takeLetters tool (front ++ 'v' :: back) := by
    cases front with
    | nil => exact take_letters hended (by decide) back
    | cons d front =>
        obtain rfl := (List.cons.inj hletters).1
        exact take_letters hended hc (front ++ 'v' :: back)
  rw [hfewer, hmore, ArgState.takeLetters_append tool hfront,
    ArgState.takeLetters_append tool hfront]
  cases hread : s.takeLetters tool front with
  | error halt => exact .alike (.error halt)
  | ok t =>
      show Compares (t.takeLetters tool back) (t.takeLetters tool ('v' :: back))
      rw [ArgState.takeLetters_cons (ArgState.short?_v tool) (by decide)]
      cases hsettle : t.settle with
      | ok u =>
          rw [ArgState.takeSwitch_verbose hsettle]
          exact .alike (Louder.takeLetters tool back (.ahead hsettle))
      | error halt =>
          obtain ⟨e, rfl⟩ := ArgState.settle_eq_error hsettle
          have hheld' := ArgState.held_of_takeLetters tool hfront hheld hread
          rw [ArgState.takeSwitch_of_error hsettle]
          exact .doomed (ArgState.Spoiled.takeLetters ⟨hheld', e, hsettle⟩ tool back) e

/-- One more use of `-v` is one more in the options, and all else is asked for as before.  A line that
is refused stays so. -/
theorem readArgs_of_addsUse {tool : Tool} {args args' : List String} (h : AddsUse tool args args') :
    Alike (fun o o' : Options => o' = o.louder 1) (tool.readArgs args) (tool.readArgs args') := by
  show Alike _ (ArgState.readOn tool args {}) (ArgState.readOn tool args' {})
  cases h with
  | @argument before after use huse hplace =>
      rw [ArgState.readOn_append, ArgState.readOn_append]
      cases hbefore : before.foldlM (ArgState.take tool) {} with
      | error halt => exact .error halt
      | ok s =>
          obtain ⟨hended, hheld⟩ := place_of_switchMayFollow hplace hbefore
          show Alike _ (Except.ok s >>= ArgState.readOn tool after) (s.readOn tool (use :: after))
          rw [ArgState.readOn_cons]
          exact (compares_use huse hended hheld).readOn tool after
  | @letter before after c front back letters hletters hc hfront hplace =>
      rw [ArgState.readOn_append, ArgState.readOn_append]
      cases hbefore : before.foldlM (ArgState.take tool) {} with
      | error halt => exact .error halt
      | ok s =>
          obtain ⟨hended, hheld⟩ := place_of_switchMayFollow hplace hbefore
          show Alike _ (s.readOn tool (_ :: after)) (s.readOn tool (_ :: after))
          rw [ArgState.readOn_cons, ArgState.readOn_cons]
          exact (compares_moreLetters hended hheld hletters hc hfront).readOn tool after

/-- The command line `base` with `k` uses of `-v` added to it, wherever they stand. -/
inductive WithUses (tool : Tool) (base : List String) : Nat → List String → Prop
  | none : WithUses tool base 0 base
  | more {k : Nat} {args args' : List String} (h : WithUses tool base k args)
      (hadds : AddsUse tool args args') : WithUses tool base (k + 1) args'

theorem WithUses.readArgs {tool : Tool} {base args : List String} {k : Nat}
    (h : WithUses tool base k args) :
    Alike (fun o o' : Options => o' = o.louder k) (tool.readArgs base) (tool.readArgs args) := by
  induction h with
  | none =>
      cases tool.readArgs base with
      | error halt => exact .error halt
      | ok o => exact .ok rfl
  | @more k args args' _ hadds ih =>
      refine ih.trans (readArgs_of_addsUse hadds) ?_
      rintro o _ _ rfl rfl
      rfl

/-- Of two lines with `k` and with `k + 1` uses, the second asks for one more in the verbosity. -/
theorem WithUses.readArgs_succ {tool : Tool} {base args args' : List String} {k : Nat}
    (hbase : ∀ o, tool.readArgs base = .ok o → o.verbose = 0) (h : WithUses tool base k args)
    (h' : WithUses tool base (k + 1) args') :
    Alike (fun o o' : Options => o.verbose = k ∧ o' = o.louder 1) (tool.readArgs args)
      (tool.readArgs args') := by
  have hquiet : Alike (fun o o' : Options => o.verbose = 0 ∧ o' = o.louder k)
      (tool.readArgs base) (tool.readArgs args) :=
    h.readArgs.mono fun o _ ho hlouder => ⟨hbase o ho, hlouder⟩
  refine hquiet.symm.trans h'.readArgs ?_
  rintro _ o _ ⟨hzero, rfl⟩ rfl
  exact ⟨by simp [Options.louder, hzero], rfl⟩

end TallyLang
