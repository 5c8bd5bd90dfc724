import TwinLisp.Eval.Ends

/-!
The rounds of a loop, and how a loop ends that has as much fuel as it needs. Besides, a loop that
counts how often its body is run.
-/

namespace TwinLisp.Eval

/-- One round: whether the condition is true; if it is, the body is run. -/
def evalRound (eval : Expr → EvalM Value) (cond : Expr) (body : List Expr) : EvalM Bool := do
  if ← evalCondition eval cond then
    let _ ← evalBody eval body
    return true
  else return false

/-- A round ends so if nothing but its own course stops it. -/
def RoundEnds (config : Config) (cond : Expr) (body : List Expr) (w : World)
    (result : EStateM.Result Halt World Bool) : Prop :=
  Finished result ∧ ∃ fuel, evalRound (evalWith config fuel) cond body w = result

/-- So many rounds, in each of which the condition is true and the body ends without an error, lead from
one world to the other. -/
inductive Rounds (config : Config) (cond : Expr) (body : List Expr) : Nat → World → World → Prop
  | zero {w} : Rounds config cond body 0 w w
  | succ {k w v u} (first : RoundEnds config cond body w (.ok true v))
    (rest : Rounds config cond body k v u) : Rounds config cond body (k + 1) w u

/-- Of the first so many rounds none raises an error, in the condition or in the body. -/
def NoErrors (config : Config) (cond : Expr) (body : List Expr) (rounds : Nat) (w : World) : Prop :=
  ∀ k < rounds, ∀ u, Rounds config cond body k w u →
    ∀ error v, ¬RoundEnds config cond body u (.error (.failed error) v)

/-- A loop that has run its body `done` times ends so. -/
inductive LoopEnds (config : Config) (cond : Expr) (body : List Expr) (span : Span) :
    Nat → World → EStateM.Result Halt World Value → Prop
  | exit {done w u} (round : RoundEnds config cond body w (.ok false u)) :
    LoopEnds config cond body span done w (.ok (.int 0) u)
  | error {done w error u} (round : RoundEnds config cond body w (.error (.failed error) u)) :
    LoopEnds config cond body span done w (.error (.failed (error.withSpan span)) u)
  | limit {done w n u} (round : RoundEnds config cond body w (.ok true u))
    (limited : config.loopLimit = some n) (reached : n ≤ done + 1) :
    LoopEnds config cond body span done w (.error (.failed ⟨.loopLimit n, some span⟩) u)
  | next {done w v result} (round : RoundEnds config cond body w (.ok true v))
    (below : ∀ n, config.loopLimit = some n → done + 1 < n)
    (rest : LoopEnds config cond body span (done + 1) v result) :
    LoopEnds config cond body span done w result

/-- A loop that has run its body `done` times: how often it has run it in the end, and how it ends. -/
def countIterations (eval : Expr → EvalM Value) (limit : Option Nat) (cond : Expr) (body : List Expr)
    (span : Span) : Nat → Nat → World → Nat × EStateM.Result Halt World Value
  | 0, done, w => (done, .error .outOfFuel w)
  | fuel + 1, done, w =>
    match evalCondition eval cond w with
    | .error halt u => (done, .error (halt.withSpan span) u)
    | .ok false u => (done, .ok (.int 0) u)
    | .ok true u =>
      match evalBody eval body u with
      | .error halt v => (done + 1, .error (halt.withSpan span) v)
      | .ok _ v =>
        match limit with
        | some n =>
          if n ≤ done + 1 then (done + 1, .error (.failed ⟨.loopLimit n, some span⟩) v)
          else countIterations eval limit cond body span fuel (done + 1) v
        | none => countIterations eval limit cond body span fuel (done + 1) v

end TwinLisp.Eval
