/-!
# Durations as text

A duration is a number of nanoseconds. It is shown in the largest unit of seconds,
milliseconds, microseconds and nanoseconds that it reaches, with the fraction that is left and
no trailing zero.
-/
namespace EntityStore.Text

/-- The digits of a fraction of a unit of `10 ^ places` parts, without trailing zeros. -/
def fractionDigits : (places : Nat) → (parts : Nat) → List Char
  | 0, _ => []
  | places + 1, parts =>
    if parts = 0 then []
    else (parts / 10 ^ places).digitChar :: fractionDigits places (parts % 10 ^ places)

def decimal (whole places parts : Nat) : String :=
  match fractionDigits places parts with
  | [] => toString whole
  | digits => toString whole ++ "." ++ String.ofList digits

/-- The duration in the largest unit that it reaches. -/
def duration (nanos : Nat) : String :=
  if 1000000000 ≤ nanos then decimal (nanos / 1000000000) 9 (nanos % 1000000000) ++ "s"
  else if 1000000 ≤ nanos then decimal (nanos / 1000000) 6 (nanos % 1000000) ++ "ms"
  else if 1000 ≤ nanos then decimal (nanos / 1000) 3 (nanos % 1000) ++ "µs"
  else toString nanos ++ "ns"

end EntityStore.Text
