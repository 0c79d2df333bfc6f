namespace SecondaryIndex

abbrev Duration := Int64

namespace Duration

def perMillisecond : Int64 := 1000000

def ofMilliseconds (n : Int64) : Duration := n * perMillisecond

def milliseconds (d : Duration) : Int64 := d / perMillisecond

end Duration
end SecondaryIndex
