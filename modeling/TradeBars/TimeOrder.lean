/-! Putting things in the order of time. The sort is stable, so that what bears the
same timestamp stays in the order in which it came. -/
namespace TradeBars

def inTimeOrder {β : Type} (timestamp : β → Int) (xs : List β) : List β :=
  xs.mergeSort fun a b => timestamp a ≤ timestamp b

end TradeBars
