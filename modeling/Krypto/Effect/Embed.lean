import Krypto.Effect.Quiet
import Krypto.Effect.Rely

/-! Programs inside a larger signature. Each call of the small signature is one call of the
larger, and a machine for the larger answers it as a machine for the small one does, on a
part of its own state. -/

namespace Krypto.Effect

def Outcome.mapErr {ε ε' α : Type} (f : ε → ε') : Outcome ε α → Outcome ε' α
  | .ok a => .ok a
  | .err e => .err (f e)
  | .panic => .panic

variable {Op Op' : Type} {Reply : Op → Type} {Reply' : Op' → Type} {σ σ' ε ε' α β : Type}

structure Into (Reply : Op → Type) (Reply' : Op' → Type) where
  op : Op → Op'
  back : (o : Op) → Reply' (op o) → Reply o

def Prog.embed (i : Into Reply Reply') (f : ε → ε') : Prog Reply ε α → Prog Reply' ε' α
  | done r => done (r.mapErr f)
  | call o next => call (i.op o) fun y => (next (i.back o y)).embed i f

/-- `M'` answers the calls of the small signature as `M` does, on the part `get` of its state. -/
structure Hosts (i : Into Reply Reply') (M : Machine Reply σ) (M' : Machine Reply' σ') where
  choice : (o : Op) → M'.Choice (i.op o) → M.Choice o
  get : σ' → σ
  put : σ → σ' → σ'
  reply : ∀ o c t, i.back o (M'.step (i.op o) c t).1 = (M.step o (choice o c) (get t)).1
  state : ∀ o c t, (M'.step (i.op o) c t).2 = put (M.step o (choice o c) (get t)).2 t
  get_put : ∀ s t, get (put s t) = s
  put_put : ∀ s s' t, put s (put s' t) = put s t
  put_get : ∀ t, put (get t) t = t

variable {i : Into Reply Reply'} {M : Machine Reply σ} {M' : Machine Reply' σ'} {E : M.Env}
  {E' : M'.Env}

theorem Hosts.wp_embed (H : Hosts i M M') (hE : ∀ o c, E' (i.op o) c → E o (H.choice o c))
    {f : ε → ε'} {p : Prog Reply ε α} {Q : Outcome ε' α → σ' → Prop} {t : σ'}
    (h : wp M E (fun _ _ _ => True) p (fun r s => Q (r.mapErr f) (H.put s t)) (H.get t)) :
    wp M' E' (fun _ _ _ => True) (p.embed i f) Q t := by
  induction p generalizing t with
  | done r =>
    have h : Q (r.mapErr f) (H.put (H.get t) t) := h
    rwa [H.put_get] at h
  | call o next ih =>
    intro c hc
    refine ⟨trivial, ?_⟩
    obtain ⟨-, hnext⟩ := h (H.choice o c) (hE o c hc)
    -- the rest runs from the state that the call left, of which `put` keeps all but `get`
    apply ih
    rw [H.reply o c t, H.state o c t, H.get_put]
    exact hnext.imp fun r s hs => (H.put_put s _ t).symm ▸ hs

theorem rg_embed {R : σ → σ → Prop} {G : Op → σ → σ → Prop} {R' : σ' → σ' → Prop}
    {G' : Op' → σ' → σ' → Prop} {B : σ → σ' → Prop} {f : ε → ε'} {p : Prog Reply ε α}
    {Q : Outcome ε α → σ → Prop} {Q' : Outcome ε' α → σ' → Prop} {s : σ} {t : σ'}
    (h : rg M E R G p Q s) (choice : (o : Op) → M'.Choice (i.op o) → M.Choice o) (hB : B s t)
    (hR : ∀ s t u, B s t → R' t u → ∃ s', R s s' ∧ B s' u)
    (hcall : ∀ o c s t, E' (i.op o) c → B s t → E o (choice o c) ∧
      i.back o (M'.step (i.op o) c t).1 = (M.step o (choice o c) s).1 ∧
      (G o s (M.step o (choice o c) s).2 → B (M.step o (choice o c) s).2 (M'.step (i.op o) c t).2 ∧
        G' (i.op o) t (M'.step (i.op o) c t).2))
    (hdone : ∀ r s t, B s t → Q r s → Q' (r.mapErr f) t) : rg M' E' R' G' (p.embed i f) Q' t := by
  induction p generalizing s t with
  | done r =>
    intro u hu
    obtain ⟨s', hs, hB'⟩ := hR s t u hB hu
    exact hdone r s' u hB' (h s' hs)
  | call o next ih =>
    intro u hu c hc
    obtain ⟨s', hs, hB'⟩ := hR s t u hB hu
    obtain ⟨he, hreply, hrest⟩ := hcall o c s' u hc hB'
    obtain ⟨hg, hn⟩ := h s' hs (choice o c) he
    obtain ⟨hB'', hg'⟩ := hrest hg
    refine ⟨hg', ?_⟩
    show rg M' E' R' G' ((next (i.back o (M'.step (i.op o) c u).1)).embed i f) Q' _
    rw [hreply]
    exact ih _ hn hB''

theorem rg.and_quiet {R : σ → σ → Prop} {G : Op → σ → σ → Prop} {N : Op → Prop} {p : Prog Reply ε α}
    {Q : Outcome ε α → σ → Prop} {Q' : Outcome ε α → Prop} {s : σ} (h : rg M E R G p Q s)
    (hq : Quiet N (fun _ _ => True) p Q') : rg M E R G p (fun r t => Q r t ∧ Q' r) s := by
  induction p generalizing s with
  | done r => exact fun t ht => ⟨h t ht, hq⟩
  | call op next ih =>
    intro t ht c hc
    obtain ⟨hg, hn⟩ := h t ht c hc
    exact ⟨hg, ih _ hn (hq.2 _ trivial)⟩

theorem quiet_embed (f : ε → ε') (p : Prog Reply ε α) :
    Quiet (fun op => ∃ o, op = i.op o) (fun _ _ => True) (p.embed i f)
      (fun r => ∃ r' : Outcome ε α, r = r'.mapErr f) := by
  induction p with
  | done r => exact ⟨r, rfl⟩
  | call o next ih => exact ⟨⟨o, rfl⟩, fun y _ => ih _⟩

end Krypto.Effect
