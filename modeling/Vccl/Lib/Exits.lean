import Mathlib

/-! Programs over a state that leave in the middle: by a jump to the label at the end of their function, or by
returning from it. The state keeps what was done before. -/
namespace Exits

inductive Jump (L R : Type) where
  | fail (l : L)
  | ret (r : R)

def Prog (S L R α : Type) : Type := S → Except (Jump L R) α × S

variable {S L R α β γ : Type}

instance : Monad (Prog S L R) where
  pure a := fun s => (.ok a, s)
  bind p f := fun s =>
    match p s with
    | (.ok a, s') => f a s'
    | (.error j, s') => (.error j, s')

def Prog.lift (f : S → α × S) : Prog S L R α := fun s => (.ok (f s).1, (f s).2)

def Prog.modify (f : S → S) : Prog S L R Unit := fun s => (.ok (), f s)

def Prog.read (f : S → α) : Prog S L R α := fun s => (.ok (f s), s)

def Prog.fail (l : L) : Prog S L R α := fun s => (.error (.fail l), s)

def Prog.ret (r : R) : Prog S L R α := fun s => (.error (.ret r), s)

def Prog.failIf (c : Prop) [Decidable c] (l : L) : Prog S L R Unit := if c then .fail l else pure ()

def Prog.retIf (c : Prop) [Decidable c] (r : R) : Prog S L R Unit := if c then .ret r else pure ()

def Prog.onFail (body : Prog S L R α) (g : L → S → S) : Prog S L R α := fun s =>
  match body s with
  | (.error (.fail l), s') => (.error (.fail l), g l s')
  | other => other

def Prog.atLabel {L' : Type} (body : Prog S L R L) (rest : L → Prog S L' R β) : Prog S L' R β := fun s =>
  match body s with
  | (.ok l, s') => rest l s'
  | (.error (.fail l), s') => rest l s'
  | (.error (.ret r), s') => (.error (.ret r), s')

/-- A function with a label at its end: whoever jumps to it or falls through goes on there, and who returns
does not. -/
def Prog.label (body : Prog S L R L) (exit : L → S → R × S) : S → R × S := fun s =>
  match body s with
  | (.ok l, s') => exit l s'
  | (.error (.fail l), s') => exit l s'
  | (.error (.ret r), s') => (r, s')

def Returns (p : Prog S L R α) (s : S) : Prop := ∃ r, (p s).1 = .error (.ret r)

def Frame (f : S → γ) (p : Prog S L R α) : Prop := ∀ s, f (p s).2 = f s

def Prog.wp (p : Prog S L R α) (s : S) (ok : α → S → Prop) (fail : L → S → Prop) (ret : R → S → Prop) : Prop :=
  match p s with
  | (.ok a, s') => ok a s'
  | (.error (.fail l), s') => fail l s'
  | (.error (.ret r), s') => ret r s'

variable {s : S} {l : L} {c : Prop} {ok : β → S → Prop} {fail : L → S → Prop} {ret : R → S → Prop}

@[simp] theorem wp_pure (b : β) : (pure b : Prog S L R β).wp s ok fail ret ↔ ok b s := Iff.rfl

@[simp] theorem wp_lift_bind {g : S → α × S} {q : α → Prog S L R β} :
    (Prog.lift g >>= q).wp s ok fail ret ↔ (q (g s).1).wp (g s).2 ok fail ret := Iff.rfl

@[simp] theorem wp_read_bind {g : S → α} {q : α → Prog S L R β} :
    (Prog.read g >>= q).wp s ok fail ret ↔ (q (g s)).wp s ok fail ret := Iff.rfl

section

variable {q : Unit → Prog S L R β}

@[simp] theorem wp_modify_bind {g : S → S} :
    (Prog.modify g >>= q).wp s ok fail ret ↔ (q ()).wp (g s) ok fail ret := Iff.rfl

@[simp] theorem wp_failIf_bind [Decidable c] :
    (Prog.failIf c l >>= q).wp s ok fail ret ↔ (c → fail l s) ∧ (¬ c → (q ()).wp s ok fail ret) := by
  rw [← ite_prop_iff_and, Prog.failIf]
  split <;> rfl

@[simp] theorem wp_retIf_bind [Decidable c] {r : R} :
    (Prog.retIf c r >>= q).wp s ok fail ret ↔ (c → ret r s) ∧ (¬ c → (q ()).wp s ok fail ret) := by
  rw [← ite_prop_iff_and, Prog.retIf]
  split <;> rfl

end

@[simp] theorem wp_onFail {body : Prog S L R β} {g : L → S → S} :
    (body.onFail g).wp s ok fail ret ↔ body.wp s ok (fun l s' => fail l (g l s')) ret := by
  rcases h : body s with ⟨(l | r) | b, s'⟩
  all_goals simp [Prog.wp, Prog.onFail, h]

@[simp] theorem wp_atLabel {L' : Type} {body : Prog S L' R L'} {rest : L' → Prog S L R β} :
    (body.atLabel rest).wp s ok fail ret ↔
      body.wp s (fun l s' => (rest l).wp s' ok fail ret) (fun l s' => (rest l).wp s' ok fail ret) ret := by
  rcases h : body s with ⟨(l | r) | l, s'⟩
  all_goals simp [Prog.wp, Prog.atLabel, h]

variable {exit : L → S → R × S}

theorem label_of_wp {body : Prog S L R L} {P : S → Prop} (here : body.wp s (fun _ => P) (fun _ => P) fun _ => P)
    (exits : ∀ l s', P s' → P (exit l s').2) :
    P (body.label exit s).2 := by
  rcases h : body s with ⟨(l | r) | l, s'⟩
  all_goals simp_all [Prog.wp, Prog.label]

theorem returns_iff {p : Prog S L R β} :
    Returns p s ↔ p.wp s (fun _ _ => False) (fun _ _ => False) fun _ _ => True := by
  rcases h : p s with ⟨(l | r) | b, _⟩
  all_goals simp [Prog.wp, Returns, h]

variable {f : S → γ}

theorem frame_iff {p : Prog S L R β} :
    Frame f p ↔ ∀ s, p.wp s (fun _ s' => f s' = f s) (fun _ s' => f s' = f s) fun _ s' => f s' = f s := by
  refine forall_congr' fun s => ?_
  rcases h : p s with ⟨(l | r) | b, s'⟩
  all_goals simp [Prog.wp, h]

theorem label_frame {body : Prog S L R L} {g : γ → γ} (s : S) (kept : Frame f body)
    (exits : ∀ l s', f (exit l s').2 = g (f s')) (moves : g (f s) ≠ f s) :
    f (body.label exit s).2 = g (f s) ↔ ¬ Returns body s := by
  have same := kept s
  rcases h : body s with ⟨(l | r) | l, s'⟩
  all_goals simp_all [Prog.label, Returns, Ne.symm]

end Exits
