import TradeBars.Bar.Basic

/-! Bars as positional records of ten values, in the order of their fields. -/
namespace TradeBars.Bar

abbrev Record := Vector Float 10

def record (b : Bar Float) : Record :=
  #v[Binary64.ofInt b.timestamp, b.openPrice, b.high, b.low, b.close, b.volume, b.quoteVolume,
    Binary64.ofInt b.tradeCount.toNat, b.takerBuyVolume, b.takerBuyQuote]

/-- Nothing is checked here: the timestamp and the count lose their fractions and
stop at the bounds of their words, and not-a-number counts as zero. -/
def ofRecord (r : Record) : Bar Float where
  timestamp := Binary64.toInt64 r[0]
  openPrice := r[1]
  high := r[2]
  low := r[3]
  close := r[4]
  volume := r[5]
  quoteVolume := r[6]
  tradeCount := Binary64.toUInt32 r[7]
  takerBuyVolume := r[8]
  takerBuyQuote := r[9]

end TradeBars.Bar
