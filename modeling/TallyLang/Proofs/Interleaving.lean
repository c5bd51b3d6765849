/-
Every way of asking a scanner reads the same stream.

A scanner can be asked for one token or for all that are left, in any order and also after
the end.  What it will give is one infinite stream, `Scanner.upcoming`: the tokens that are
left, with the end of the input once, and then the end of the input over and over.  Each
call takes what it returns from the front of that stream and leaves the rest of it to the
calls after it (`upcoming_call`), so calls in any order read the stream of the source from
its start.
-/
import Mathlib.Data.Stream.Init
import TallyLang.Proofs.MaximalMunch

namespace TallyLang

namespace Scanner

/-! ### Calls -/

/-- What a scanner can be asked for: the next token, or all tokens up to the end. -/
inductive Call where
  | next
  | drain
deriving DecidableEq, Repr

/-- What a call returns, and the scanner after it. -/
def call (s : Scanner) : Call → List LocatedToken × Scanner
  | .next => ([s.next.1], s.next.2)
  | .drain => s.drain

/-- What calls one after the other return, a list for each call. -/
def calls : Scanner → List Call → List (List LocatedToken)
  | _, [] => []
  | s, c :: cs => (s.call c).1 :: (s.call c).2.calls cs

/-! ### The next token and all tokens -/

/-- The end of the input, at the location where the scanner will find it. -/
def eof (s : Scanner) : LocatedToken := ⟨.eof, s.drain.2.loc⟩

/-- The scanner at the end. -/
def ended (s : Scanner) : Scanner := ⟨s.eof.loc, []⟩

/-- The next token is the end, or the first of all tokens that are left. -/
inductive Asked (s : Scanner) : Prop where
  | atEnd (next : s.next = (s.eof, s.ended)) (drain : s.drain = ([s.eof], s.ended))
  | token {p : Piece} (mem : p ∈ s.pending) (kind : p.kind = .token s.next.1.token)
      (suffix : s.next.2.pending <:+ s.pending)
      (drain : s.drain = (s.next.1 :: s.next.2.drain.1, s.next.2.drain.2))

/-- A piece in front does not move the end. -/
theorem eof_cons (loc : Location) (p : Piece) (ps : List Piece) :
    eof ⟨loc, p :: ps⟩ = eof ⟨p.after loc, ps⟩ := by
  cases hkind : p.kind <;> simp [eof, drain, drainFrom, hkind]

theorem asked_cons {loc : Location} {p : Piece} {ps : List Piece}
    (h : Asked ⟨p.after loc, ps⟩) : Asked ⟨loc, p :: ps⟩ := by
  cases hkind : p.kind with
  | token t =>
      have hnext : next ⟨loc, p :: ps⟩ = (⟨t, loc⟩, ⟨p.after loc, ps⟩) := by
        simp [next, nextFrom, hkind]
      refine .token List.mem_cons_self ?_ ?_ ?_
      · rw [hnext, hkind]
      · rw [hnext]
        exact List.suffix_cons p ps
      · rw [hnext]
        simp [drain, drainFrom, hkind]
  | _ =>
      -- a piece that is no token changes nothing but the location
      have hnext : next ⟨loc, p :: ps⟩ = next ⟨p.after loc, ps⟩ := by
        simp [next, nextFrom, hkind]
      have hdrain : drain ⟨loc, p :: ps⟩ = drain ⟨p.after loc, ps⟩ := by
        simp [drain, drainFrom, hkind]
      cases h with
      | atEnd next drain =>
          refine .atEnd ?_ ?_
          · rw [hnext, next, ended, ended, eof_cons]
          · rw [hdrain, drain, ended, ended, eof_cons]
      | token mem kind suffix drain =>
          refine .token (List.mem_cons_of_mem p mem) ?_ ?_ ?_
          · rw [hnext]
            exact kind
          · rw [hnext]
            exact suffix.trans (List.suffix_cons p ps)
          · rw [hnext, hdrain]
            exact drain

theorem asked (s : Scanner) : Asked s := by
  obtain ⟨loc, ps⟩ := s
  induction ps generalizing loc with
  | nil => exact .atEnd rfl rfl
  | cons p ps ih => exact asked_cons (ih (p.after loc))

theorem drain_snd (s : Scanner) : s.drain.2 = s.ended := by
  have hpending : ∀ (ps : List Piece) (loc : Location), (drainFrom loc ps).2.pending = [] := by
    intro ps
    induction ps with
    | nil =>
        intro loc
        rfl
    | cons p ps ih =>
        intro loc
        cases hkind : p.kind <;> simp [drainFrom, hkind, ih]
  have hnone : s.drain.2.pending = [] := hpending s.pending s.loc
  rw [ended, ← hnone]
  rfl

/-- A call does not move the end of the input. -/
theorem eof_call (s : Scanner) (c : Call) : (s.call c).2.eof = s.eof := by
  cases c with
  | next =>
      cases s.asked with
      | atEnd next _ =>
          rw [call, next]
          rfl
      | token _ _ _ drain => rw [call, eof, eof, drain]
  | drain =>
      rw [call, drain_snd]
      rfl

/-! ### The stream -/

/-- Everything that the scanner will ever give. -/
def upcoming (s : Scanner) : Stream' LocatedToken := s.drain.1 ++ₛ .const s.eof

theorem upcoming_ended (s : Scanner) : s.ended.upcoming = .const s.eof :=
  (Stream'.const_eq s.eof).symm

/-- A call takes what it returns from the front of the stream. -/
theorem upcoming_call (s : Scanner) (c : Call) :
    s.upcoming = (s.call c).1 ++ₛ (s.call c).2.upcoming := by
  cases c with
  | next =>
      cases s.asked with
      | atEnd next drain => rw [call, next, upcoming_ended, upcoming, drain]
      | token _ _ _ drain =>
          rw [upcoming, upcoming, ← eof_call s .next, call, drain]
          rfl
  | drain => rw [call, drain_snd, upcoming_ended, upcoming]

/-- So do calls one after the other. -/
theorem exists_upcoming_calls (cs : List Call) : ∀ s : Scanner,
    ∃ rest, s.upcoming = (s.calls cs).flatten ++ₛ rest := by
  induction cs with
  | nil =>
      intro s
      exact ⟨s.upcoming, rfl⟩
  | cons c cs ih =>
      intro s
      obtain ⟨rest, hrest⟩ := ih (s.call c).2
      refine ⟨rest, ?_⟩
      rw [calls, List.flatten_cons, Stream'.append_append_stream, ← hrest]
      exact s.upcoming_call c

/-! ### The end of the input -/

/-- No piece that is left is the end of the input. -/
def Clean (s : Scanner) : Prop := ∀ p ∈ s.pending, p.kind ≠ .token .eof

theorem clean_pieces (loc : Location) (text : List Char) : Clean ⟨loc, Piece.pieces text⟩ := by
  intro p hp hkind
  have htoken : Token.eof ∈ (Piece.pieces text).filterMap Piece.token? := by
    refine List.mem_filterMap.mpr ⟨p, hp, ?_⟩
    rw [Piece.token?, hkind]
  exact ((munches_pieces text).ne_of_mem_tokens _ htoken).1 rfl

theorem Clean.call {s : Scanner} (h : s.Clean) (c : Call) : (s.call c).2.Clean := by
  have hended : s.ended.Clean := by
    intro p hp
    cases hp
  cases c with
  | next =>
      cases s.asked with
      | atEnd next _ =>
          rw [Scanner.call, next]
          exact hended
      | token _ _ suffix _ => exact fun p hp => h p (suffix.subset hp)
  | drain =>
      rw [Scanner.call, drain_snd]
      exact hended

/-- All tokens that are left are some that are not the end, and then the end. -/
theorem Clean.exists_drain {s : Scanner} (h : s.Clean) :
    ∃ tokens, s.drain.1 = tokens ++ [s.eof] ∧ ∀ t ∈ tokens, t.token ≠ .eof := by
  obtain ⟨loc, ps⟩ := s
  induction ps generalizing loc with
  | nil => exact ⟨[], rfl, by simp⟩
  | cons p ps ih =>
      obtain ⟨tokens, hdrain, htokens⟩ :=
        ih (p.after loc) fun q hq => h q (List.mem_cons_of_mem p hq)
      rw [eof_cons]
      cases hkind : p.kind with
      | token t =>
          refine ⟨⟨t, loc⟩ :: tokens, ?_, ?_⟩
          · rw [List.cons_append, ← hdrain]
            simp [drain, drainFrom, hkind]
          · intro t' ht'
            rcases List.mem_cons.mp ht' with rfl | ht'
            · rintro rfl
              exact h p List.mem_cons_self hkind
            · exact htokens t' ht'
      | _ =>
          refine ⟨tokens, ?_, htokens⟩
          rw [← hdrain]
          simp [drain, drainFrom, hkind]

/-- Asking for all tokens is asking for the next one until it is the end. -/
theorem Clean.drain_eq {s : Scanner} (h : s.Clean) :
    s.drain = if s.next.1.token = .eof then ([s.next.1], s.next.2)
      else (s.next.1 :: s.next.2.drain.1, s.next.2.drain.2) := by
  cases s.asked with
  | atEnd next drain =>
      rw [if_pos (by rw [next]; rfl), next]
      exact drain
  | token mem kind _ drain =>
      rw [if_neg]
      · exact drain
      · intro heof
        rw [heof] at kind
        exact h _ mem kind

/-- A call that returns the end has reached it. -/
theorem Clean.ended_of_mem {s : Scanner} (h : s.Clean) {c : Call} {t : LocatedToken}
    (ht : t ∈ (s.call c).1) (heof : t.token = .eof) : (s.call c).2 = s.ended := by
  cases c with
  | next =>
      cases s.asked with
      | atEnd next _ => rw [Scanner.call, next]
      | token mem kind _ _ =>
          rw [Scanner.call, List.mem_singleton] at ht
          rw [← ht, heof] at kind
          exact absurd kind (h _ mem)
  | drain => exact s.drain_snd

/-- At the end every call returns the end. -/
theorem calls_ended (s : Scanner) (cs : List Call) :
    s.ended.calls cs = cs.map fun _ => [s.eof] := by
  induction cs with
  | nil => rfl
  | cons c cs ih =>
      have hcall : s.ended.call c = ([s.eof], s.ended) := by
        cases c <;> rfl
      rw [calls, hcall, ih]
      rfl

/-- What a call for all tokens returns, wherever it stands among others. -/
theorem Clean.drained (cs : List Call) : ∀ {s : Scanner}, s.Clean → ∀ {i : Nat},
    cs[i]? = some .drain → ∃ tokens, (s.calls cs)[i]? = some (tokens ++ [s.eof]) ∧
      (∀ t ∈ tokens, t.token ≠ .eof) ∧
      ((∃ t ∈ ((s.calls cs).take i).flatten, t.token = .eof) → tokens = []) := by
  induction cs with
  | nil =>
      intro s h i hi
      cases hi
  | cons c cs ih =>
      intro s h i hi
      cases i with
      | zero =>
          obtain rfl : c = .drain := Option.some.inj hi
          obtain ⟨tokens, hdrain, htokens⟩ := h.exists_drain
          refine ⟨tokens, congrArg some hdrain, htokens, ?_⟩
          rintro ⟨t, ht, -⟩
          cases ht
      | succ i =>
          rw [List.getElem?_cons_succ] at hi
          obtain ⟨tokens, hcall, htokens, hend⟩ := ih (h.call c) hi
          rw [eof_call] at hcall
          refine ⟨tokens, hcall, htokens, ?_⟩
          rintro ⟨t, ht, heof⟩
          rw [calls, List.take_succ_cons, List.flatten_cons, List.mem_append] at ht
          rcases ht with ht | ht
          · -- the end was reached by the first call, and nothing else is given from then on
            rw [h.ended_of_mem ht heof, calls_ended, List.getElem?_map, hi] at hcall
            simpa using hcall
          · exact hend ⟨t, ht, heof⟩

end Scanner

end TallyLang
