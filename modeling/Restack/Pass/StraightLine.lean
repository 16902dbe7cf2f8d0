import Restack.Stack.Body

set_option autoImplicit false

namespace Restack

/-- `forget` is called where a stretch ends and anything may come before or after, `leave` where it
ends the method, and `visit` on each line inside. -/
structure Walker (σ : Type) where
  forget : σ → σ
  leave : σ → σ
  visit : σ → Line → σ

namespace Walker

/-- One step. `level` counts the guarded ranges around the line; guarded lines are passed over. -/
def step {σ : Type} (w : Walker σ) (b : Body) (level : Int) (s : σ) (l : Line) : Int × σ :=
  let (level, s) :=
    if b.starts.contains l.tag then (level + 1, w.forget s)
    else if b.stops.contains l.tag then (level - 1, s)
    else (level, s)
  if level > 0 then (level, s)
  else
    let s :=
      if b.isTarget l || !l.insn.targets.isEmpty then w.forget s
      else if !l.insn.fallsThrough then w.leave s
      else w.visit s l
    (level, s)

def walk {σ : Type} (w : Walker σ) (b : Body) (start : σ) : σ :=
  (b.lines.foldl (fun (level, s) l => w.step b level s l) (0, start)).2

end Walker

end Restack
