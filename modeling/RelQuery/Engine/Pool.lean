import RelQuery.Engine.Basic

/-!
# Pools of workers

A pool lends an engine to at most a given number of runs at a time.  Between runs all workers are
idle.  A closed pool runs nothing.
-/

namespace RelQuery

/-- An engine with a number of workers. -/
structure Pool where
  engine : Engine
  workers : Nat
  closed : Bool

namespace Pool

/-- A pool of at least one worker. -/
def ofEngine (engine : Engine) (workers : Nat) : Pool :=
  ⟨engine, max workers 1, false⟩

/-- The number of workers that run nothing. -/
def idle (pool : Pool) : Nat :=
  pool.workers

def close (pool : Pool) : Pool :=
  { pool with closed := true }

/-- Runs a program on the next idle worker. -/
def run (pool : Pool) (program : String) (inputs : Relations) (outputs : Signatures) :
    Except EngineError Relations :=
  if pool.closed then .error .poolClosed else pool.engine.run program inputs outputs

def toEngine (pool : Pool) : Engine :=
  ⟨pool.run⟩

def render (pool : Pool) : String :=
  s!"EnginePool \x7b workers: {pool.workers}, idle: {pool.idle}, .. \x7d"

end Pool

end RelQuery
